import MatrixSdk.InboundSessions

/-!
Copies of one session that arrive one after the other. The stored session is the join of
all of them: it can decrypt from the smallest message index any of them knows, and its
sender is as trusted as in the most trusted of them, in whatever order they arrive.
-/
namespace MatrixSdk.ReceivedKeys

open InboundSessions InboundSessions.InboundGroupSession SessionStore SessionOrdering List

variable {Ratchet : Type} {library : RatchetLibrary Ratchet}
variable {store : SessionStore library} {session old : InboundGroupSession library}

/-- A session as it is made from a received or an exported key: not backed up yet. -/
structure Delivery (library : RatchetLibrary Ratchet) where
  session : InboundGroupSession library
  fromBackupVersion : Option String
  not_backedUp : session.backedUp = false

def receive (store : SessionStore library) (delivery : Delivery library) :
    Option (SessionStore library) :=
  importSessions store [delivery.session] delivery.fromBackupVersion

def receiveAll (store : SessionStore library) (deliveries : List (Delivery library)) :
    Option (SessionStore library) :=
  deliveries.foldlM receive store

def Connected (session other : InboundGroupSession library) : Prop :=
  session.compareRatchet other ≠ .unconnected

instance (session other : InboundGroupSession library) : Decidable (Connected session other) :=
  inferInstanceAs (Decidable (_ ≠ _))

namespace Connected

section

variable (h : Connected session old)
include h

theorem creatorInfo_eq : session.creatorInfo = old.creatorInfo := by
  unfold Connected compareRatchet at h
  split at h
  · exact absurd rfl h
  · next hsame =>
    push Not at hsame
    obtain ⟨hcurve, hsigning, -⟩ := hsame
    cases hcreator : session.creatorInfo
    cases hother : old.creatorInfo
    simp_all

theorem algorithm_eq : session.algorithm = old.algorithm := by
  unfold Connected compareRatchet at h
  split at h
  · exact absurd rfl h
  · next hsame =>
    push Not at hsame
    exact hsame.2.2.1

theorem roomId_eq : session.roomId = old.roomId := by
  unfold Connected compareRatchet at h
  split at h
  · exact absurd rfl h
  · next hsame =>
    push Not at hsame
    exact hsame.2.2.2

theorem compare_ne : library.compare session.inner old.inner ≠ .unconnected := by
  unfold Connected compareRatchet at h
  split at h
  · exact absurd rfl h
  · exact h

end

end Connected

/-- What the store holds after `session` was merged with the stored `old`. -/
structure Joined (old session stored : InboundGroupSession library) : Prop where
  key_eq : stored.key = old.key
  creatorInfo_eq : stored.creatorInfo = old.creatorInfo
  algorithm_eq : stored.algorithm = old.algorithm
  ratchet : stored.inner = old.inner ∧ stored.firstKnownIndex = old.firstKnownIndex ∨
    stored.inner = session.inner ∧ stored.firstKnownIndex = session.firstKnownIndex
  index_eq : stored.firstKnownIndex = min old.firstKnownIndex session.firstKnownIndex
  sender : stored.senderData = old.senderData ∨ stored.senderData = session.senderData
  trust_eq : stored.trustLevel = max old.trustLevel session.trustLevel

theorem withRatchet_eq_some (hkey : session.key = old.key) :
    session.withRatchet old = some { session with
      inner := old.inner
      firstKnownIndex := old.firstKnownIndex
      firstKnownIndex_eq := old.firstKnownIndex_eq } := by
  have hroom : session.roomId = old.roomId := congrArg Prod.fst hkey
  have hid : session.sessionId = old.sessionId := congrArg Prod.snd hkey
  simp [withRatchet, hroom, hid]

theorem compareTrustLevel_eq :
    session.senderData.compareTrustLevel old.senderData =
      if session.trustLevel < old.trustLevel then .lt
      else if session.trustLevel = old.trustLevel then .eq else .gt := by
  unfold SenderData.compareTrustLevel trustLevel
  rcases Nat.lt_trichotomy session.senderData.trustNumber old.senderData.trustNumber with
    h | h | h
  · simp [Nat.compare_eq_lt.mpr h, h]
  · simp [h]
  · rw [Nat.compare_eq_gt.mpr h, if_neg (by omega), if_neg (by omega)]

/-- The session that a merge leaves in the store, by the two comparisons. -/
def join (old session : InboundGroupSession library) : Option (InboundGroupSession library) :=
  if session.firstKnownIndex < old.firstKnownIndex then
    if session.trustLevel < old.trustLevel then
      some { old with
        inner := session.inner
        firstKnownIndex := session.firstKnownIndex
        firstKnownIndex_eq := session.firstKnownIndex_eq
        backedUp := false }
    else some session
  else if old.trustLevel < session.trustLevel then
    if session.firstKnownIndex = old.firstKnownIndex then some session
    else some { session with
      inner := old.inner
      firstKnownIndex := old.firstKnownIndex
      firstKnownIndex_eq := old.firstKnownIndex_eq }
  else none

theorem merge_eq_join (hget : store.get session.key = some old) (hconn : Connected session old) :
    ∃ decision, mergeReceivedGroupSession store session = some (decision, join old session) := by
  have hkey : old.key = session.key := store.key_of_get _ _ hget
  have hratchet : session.compareRatchet old =
      .ofIndexes session.firstKnownIndex old.firstKnownIndex := by
    have hcompare : session.compareRatchet old = library.compare session.inner old.inner := by
      unfold Connected compareRatchet at *
      split at hconn
      · exact absurd rfl hconn
      · next hsame => rw [if_neg hsame]
    rw [hcompare, library.compare_eq _ _ hconn.compare_ne, session.firstKnownIndex_eq,
      old.firstKnownIndex_eq]
  have htrust : session.senderData.compareTrustLevel old.senderData = _ := compareTrustLevel_eq
  unfold mergeReceivedGroupSession join
  rw [hget]
  rcases Nat.lt_trichotomy session.firstKnownIndex old.firstKnownIndex with hidx | hidx | hidx
  · have hbetter : session.compareRatchet old = .better := by
      rw [hratchet, ofIndexes, if_neg (by omega), if_pos hidx]
    rcases Nat.lt_trichotomy session.trustLevel old.trustLevel with hlevel | hlevel | hlevel
    · simp [hbetter, htrust, hlevel, hidx, withRatchet_eq_some hkey, resetBackupState]
    · simp [hbetter, htrust, hlevel, hidx]
    · simp [hbetter, htrust, Nat.lt_asymm hlevel, Nat.ne_of_gt hlevel, hidx]
  · have hequal : session.compareRatchet old = .equal := by
      rw [hratchet, ofIndexes, if_pos hidx]
    rcases Nat.lt_trichotomy session.trustLevel old.trustLevel with hlevel | hlevel | hlevel
    · simp [hequal, htrust, hlevel, hidx, Nat.lt_asymm hlevel]
    · simp [hequal, htrust, hlevel, hidx]
    · simp [hequal, htrust, hlevel, Nat.lt_asymm hlevel, Nat.ne_of_gt hlevel, hidx]
  · have hworse : session.compareRatchet old = .worse := by
      rw [hratchet, ofIndexes, if_neg (by omega), if_neg (by omega)]
    rcases Nat.lt_trichotomy session.trustLevel old.trustLevel with hlevel | hlevel | hlevel
    · simp [hworse, htrust, hlevel, Nat.lt_asymm hlevel, Nat.lt_asymm hidx]
    · simp [hworse, htrust, hlevel, Nat.lt_asymm hidx]
    · simp [hworse, htrust, hlevel, Nat.lt_asymm hlevel, Nat.ne_of_gt hlevel, Nat.lt_asymm hidx,
        Nat.ne_of_gt hidx, withRatchet_eq_some hkey.symm]

theorem joined_join (hkey : session.key = old.key) (hconn : Connected session old) :
    Joined old session ((join old session).getD old) := by
  have hcreator := hconn.creatorInfo_eq
  have halgorithm := hconn.algorithm_eq
  unfold join
  split_ifs with hidx hlevel hlevel hsame
  · exact ⟨rfl, rfl, rfl, .inr ⟨rfl, rfl⟩, by simp; omega, .inl rfl,
      by simp [trustLevel] at *; omega⟩
  · exact ⟨hkey, hcreator, halgorithm, .inr ⟨rfl, rfl⟩, by simp; omega, .inr rfl, by simp; omega⟩
  · exact ⟨hkey, hcreator, halgorithm, .inr ⟨rfl, rfl⟩, by simp; omega, .inr rfl, by simp; omega⟩
  · exact ⟨hkey, hcreator, halgorithm, .inl ⟨rfl, rfl⟩, by simp; omega, .inr rfl,
      by simp [trustLevel] at *; omega⟩
  · exact ⟨rfl, rfl, rfl, .inl ⟨rfl, rfl⟩, by simp; omega, .inl rfl, by simp; omega⟩

theorem merge_of_unconnected (hget : store.get session.key = some old)
    (hconn : ¬Connected session old) :
    mergeReceivedGroupSession store session = some (.unconnectedRejected, none) := by
  have hunconnected : session.compareRatchet old = .unconnected := not_not.mp hconn
  unfold mergeReceivedGroupSession
  simp [hget, hunconnected]

/-- What a copy leaves to be saved in the place of the session that is stored. -/
def accept (old : Option (InboundGroupSession library)) (copy : InboundGroupSession library) :
    Option (InboundGroupSession library) :=
  match old with
  | none => some copy
  | some old => if Connected copy old then join old copy else none

/-- A merge never panics, since the store keeps every session under its own ids. -/
theorem merge_eq_accept (store : SessionStore library) (session : InboundGroupSession library) :
    (∃ decision, mergeReceivedGroupSession store session =
      some (decision, accept (store.get session.key) session)) ∧
    ∀ merged, accept (store.get session.key) session = some merged → merged.key = session.key := by
  cases hget : store.get session.key with
  | none =>
    refine ⟨⟨.acceptedNew, by simp [mergeReceivedGroupSession, hget, accept]⟩, ?_⟩
    rintro merged ⟨⟩
    rfl
  | some old =>
    by_cases hconn : Connected session old
    · have hkey : old.key = session.key := store.key_of_get _ _ hget
      refine ⟨by simpa [accept, hconn] using merge_eq_join hget hconn, fun merged hmerged => ?_⟩
      have hjoined := joined_join hkey.symm hconn
      rw [accept, if_pos hconn] at hmerged
      rw [hmerged] at hjoined
      exact hjoined.key_eq.trans hkey
    · exact ⟨⟨_, by simpa [accept, hconn] using merge_of_unconnected hget hconn⟩,
        by simp [accept, hconn]⟩

variable (delivery : Delivery library) (merged : InboundGroupSession library)

/-- A merged session as it is saved. -/
def Delivery.stamp : InboundGroupSession library :=
  if delivery.fromBackupVersion.isSome then merged.markAsBackedUp else merged

variable {delivery : Delivery library} {copies : List (InboundGroupSession library)}

theorem receive_of_merge {decision : RoomKeyMergeDecision}
    {merged : Option (InboundGroupSession library)}
    (h : mergeReceivedGroupSession store delivery.session = some (decision, merged)) :
    receive store delivery = some (merged.elim store fun m => store.save (delivery.stamp m)) := by
  unfold receive importSessions mergeAll mergeAll
  cases merged with
  | none => simp [h, saveInboundGroupSessions]
  | some m => simp [h, saveInboundGroupSessions, Delivery.stamp]

@[simp]
theorem stamp_key : (delivery.stamp merged).key = merged.key := by
  unfold Delivery.stamp
  split <;> rfl

/-- The stored session is put together from the copies: its ratchet and its sender each come
from one of them, and none of them is better in either. -/
structure Gathers (copies : List (InboundGroupSession library))
    (stored : InboundGroupSession library) : Prop where
  ratchet : ∃ copy ∈ copies,
    stored.inner = copy.inner ∧ stored.firstKnownIndex = copy.firstKnownIndex
  sender : ∃ copy ∈ copies, stored.senderData = copy.senderData
  origin : ∃ copy ∈ copies, stored.creatorInfo = copy.creatorInfo ∧
    stored.algorithm = copy.algorithm ∧ stored.roomId = copy.roomId
  index_le : ∀ copy ∈ copies, stored.firstKnownIndex ≤ copy.firstKnownIndex
  trust_le : ∀ copy ∈ copies, copy.trustLevel ≤ stored.trustLevel

namespace Gathers

variable {copies : List (InboundGroupSession library)} {stored : InboundGroupSession library}

theorem singleton (session : InboundGroupSession library) : Gathers [session] session :=
  ⟨⟨session, by simp⟩, ⟨session, by simp⟩, ⟨session, by simp⟩, by simp, by simp⟩

section

variable (h : Gathers copies stored)
include h

theorem stamp (delivery : Delivery library) : Gathers copies (delivery.stamp stored) := by
  unfold Delivery.stamp
  split
  · exact ⟨h.ratchet, h.sender, h.origin, h.index_le, h.trust_le⟩
  · exact h

/-- A copy that connects with every copy seen so far connects with the stored session. -/
theorem connected (hconn : ∀ copy ∈ copies, Connected session copy) : Connected session stored := by
  obtain ⟨x, hx, hinner, -⟩ := h.ratchet
  obtain ⟨y, hy, hcreator, halgorithm, hroom⟩ := h.origin
  unfold Connected compareRatchet
  rw [if_neg, hinner]
  · exact (hconn x hx).compare_ne
  · simp [hcreator, halgorithm, hroom, (hconn y hy).creatorInfo_eq, (hconn y hy).algorithm_eq,
      (hconn y hy).roomId_eq]

theorem join {new : InboundGroupSession library} (hjoined : Joined stored session new) :
    Gathers (copies ++ [session]) new := by
  obtain ⟨x, hx, hinner, hindex⟩ := h.ratchet
  obtain ⟨y, hy, hsender⟩ := h.sender
  obtain ⟨z, hz, hcreator, halgorithm, hroom⟩ := h.origin
  refine ⟨?_, ?_, ?_, ?_, ?_⟩
  · rcases hjoined.ratchet with ⟨hi, hk⟩ | ⟨hi, hk⟩
    · exact ⟨x, by simp [hx], hi.trans hinner, hk.trans hindex⟩
    · exact ⟨session, by simp, hi, hk⟩
  · rcases hjoined.sender with hs | hs
    · exact ⟨y, by simp [hy], hs.trans hsender⟩
    · exact ⟨session, by simp, hs⟩
  · have hkey : new.roomId = stored.roomId := congrArg Prod.fst hjoined.key_eq
    exact ⟨z, by simp [hz], hjoined.creatorInfo_eq.trans hcreator,
      hjoined.algorithm_eq.trans halgorithm, hkey.trans hroom⟩
  · intro copy hcopy
    rw [hjoined.index_eq]
    rcases mem_append.mp hcopy with hcopy | hcopy
    · exact Nat.le_trans (Nat.min_le_left ..) (h.index_le copy hcopy)
    · rw [mem_singleton.mp hcopy]
      exact Nat.min_le_right ..
  · intro copy hcopy
    rw [hjoined.trust_eq]
    rcases mem_append.mp hcopy with hcopy | hcopy
    · exact Nat.le_trans (h.trust_le copy hcopy) (Nat.le_max_left ..)
    · rw [mem_singleton.mp hcopy]
      exact Nat.le_max_right ..

end

end Gathers

/-- A session put together from copies that connect with one of them connects with it, too. -/
theorem connected_of_gathers {stored base : InboundGroupSession library} (h : Gathers copies stored)
    (hbase : ∀ x ∈ copies, Connected x base) : Connected stored base := by
  obtain ⟨x, hx, hinner, -⟩ := h.ratchet
  obtain ⟨y, hy, hcreator, halgorithm, hroom⟩ := h.origin
  unfold Connected compareRatchet
  rw [if_neg, hinner]
  · exact (hbase x hx).compare_ne
  · simp [hcreator, halgorithm, hroom, (hbase y hy).creatorInfo_eq, (hbase y hy).algorithm_eq,
      (hbase y hy).roomId_eq]

/-- The copies of the session with these ids, in the order they arrive. -/
def copiesOf (key : String × String) (deliveries : List (Delivery library)) :
    List (InboundGroupSession library) :=
  (deliveries.map Delivery.session).filter fun session => session.key = key

theorem copiesOf_eq {key : String × String} {deliveries : List (Delivery library)} :
    copiesOf key deliveries =
      (deliveries.filter fun delivery => delivery.session.key = key).map Delivery.session := by
  simp [copiesOf, filter_map, Function.comp_def]

theorem key_of_mem_copies {key : String × String} {deliveries : List (Delivery library)} :
    ∀ x ∈ (store.get key).toList ++
      (deliveries.filter fun delivery => delivery.session.key = key).map Delivery.session,
      x.key = key := by
  intro x hx
  rcases mem_append.mp hx with hx | hx
  · exact store.key_of_get key x (by simpa using hx)
  · obtain ⟨delivery, hdelivery, rfl⟩ := mem_map.mp hx
    simpa using (mem_filter.mp hdelivery).2

/-- The stored session after deliveries of it, one after the other. -/
def received (old : Option (InboundGroupSession library)) (deliveries : List (Delivery library)) :
    Option (InboundGroupSession library) :=
  deliveries.foldl
    (fun old delivery => ((accept old delivery.session).map delivery.stamp).or old) old

theorem get_save_stamp (key : String × String) : (store.save (delivery.stamp merged)).get key =
    if key = merged.key then some (delivery.stamp merged) else store.get key := by
  simp [SessionStore.save]

theorem get_receiveAll (deliveries : List (Delivery library)) (store : SessionStore library) :
    ∃ final, receiveAll store deliveries = some final ∧ ∀ key, final.get key =
      received (store.get key) (deliveries.filter fun delivery => delivery.session.key = key) := by
  induction deliveries generalizing store with
  | nil => exact ⟨store, rfl, fun _ => rfl⟩
  | cons delivery deliveries ih =>
    obtain ⟨⟨decision, hmerge⟩, hkey⟩ := merge_eq_accept store delivery.session
    have hreceive := receive_of_merge hmerge
    obtain ⟨final, hfinal, hget⟩ := ih _
    refine ⟨final, by simpa [receiveAll, hreceive] using hfinal, fun key => ?_⟩
    rw [hget]
    cases haccept : accept (store.get delivery.session.key) delivery.session with
    | none =>
      by_cases heq : delivery.session.key = key
      · subst heq
        simp [received, haccept]
      · simp [heq]
    | some merged =>
      by_cases heq : delivery.session.key = key
      · subst heq
        simp [received, haccept, get_save_stamp, hkey merged haccept]
      · simp [heq, get_save_stamp, hkey merged haccept, Ne.symm heq]

/-- Copies that connect are of one ratchet. -/
structure Connecting (copies : List (InboundGroupSession library)) : Prop where
  refl : ∀ x ∈ copies, Connected x x
  symm : ∀ x ∈ copies, ∀ y ∈ copies, Connected x y → Connected y x
  trans : ∀ x ∈ copies, ∀ y ∈ copies, ∀ z ∈ copies, Connected x y → Connected y z → Connected x z

section

variable {all : List (InboundGroupSession library)} {base stored : InboundGroupSession library}
  {key : String × String} {deliveries : List (Delivery library)}

/-- The copies that do not connect with the first one are passed over. -/
theorem received_gathers (hall : Connecting all) (hbase : base ∈ all)
    (hkey : ∀ x ∈ all, x.key = key) (hseen : ∀ x ∈ copies, x ∈ all ∧ Connected x base)
    (hnew : ∀ x ∈ deliveries.map Delivery.session, x ∈ all)
    (hstored : Gathers copies stored) (hstoredKey : stored.key = key) :
    ∃ final, received (some stored) deliveries = some final ∧
      Gathers (copies ++ (deliveries.map Delivery.session).filter (Connected · base)) final := by
  induction deliveries generalizing copies stored with
  | nil => exact ⟨stored, rfl, by simpa using hstored⟩
  | cons delivery deliveries ih =>
    have hcopy := hnew delivery.session (by simp)
    have hrest : ∀ x ∈ deliveries.map Delivery.session, x ∈ all := fun x hx =>
      hnew x (mem_cons_of_mem _ hx)
    by_cases hconn : Connected delivery.session base
    · have hconn' : Connected delivery.session stored := hstored.connected fun x hx =>
        hall.trans _ hcopy _ hbase _ (hseen x hx).1 hconn
          (hall.symm _ (hseen x hx).1 _ hbase (hseen x hx).2)
      have hjoined := joined_join ((hkey _ hcopy).trans hstoredKey.symm) hconn'
      have hnext := hstored.join hjoined
      have hseen' : ∀ x ∈ copies ++ [delivery.session], x ∈ all ∧ Connected x base := by
        simpa [or_imp, forall_and, hcopy, hconn] using hseen
      cases hjoin : join stored delivery.session with
      | none =>
        rw [hjoin] at hnext
        obtain ⟨final, hfinal, hgathers⟩ := ih hseen' hrest hnext hstoredKey
        exact ⟨final, by simpa [received, accept, hconn', hjoin] using hfinal,
          by simpa [hconn] using hgathers⟩
      | some merged =>
        rw [hjoin] at hnext hjoined
        obtain ⟨final, hfinal, hgathers⟩ := ih hseen' hrest (hnext.stamp delivery)
          (by simpa using hjoined.key_eq.trans hstoredKey)
        exact ⟨final, by simpa [received, accept, hconn', hjoin] using hfinal,
          by simpa [hconn] using hgathers⟩
    · have hconn' : ¬Connected delivery.session stored := by
        intro h
        obtain ⟨x, hx, hinner, -⟩ := hstored.ratchet
        have hsame := connected_of_gathers hstored fun x hx => (hseen x hx).2
        have hx' := (hseen x hx).2
        refine hconn (hall.trans _ hcopy x (hseen x hx).1 _ hbase ?_ hx')
        unfold Connected compareRatchet
        rw [if_neg, ← hinner]
        · exact h.compare_ne
        · simp [h.creatorInfo_eq, h.algorithm_eq, h.roomId_eq, hsame.creatorInfo_eq,
            hsame.algorithm_eq, hsame.roomId_eq, hx'.creatorInfo_eq, hx'.algorithm_eq,
            hx'.roomId_eq]
      obtain ⟨final, hfinal, hgathers⟩ := ih hseen hrest hstored hstoredKey
      exact ⟨final, by simpa [received, accept, hconn'] using hfinal,
        by simpa [hconn] using hgathers⟩

/-- The stored session is the join of the copies that connect with the first one. -/
theorem received_spec {old : Option (InboundGroupSession library)}
    (hall : Connecting (old.toList ++ deliveries.map Delivery.session))
    (hkey : ∀ x ∈ old.toList ++ deliveries.map Delivery.session, x.key = key)
    (hbase : base ∈ (old.toList ++ deliveries.map Delivery.session).head?) :
    ∃ final, received old deliveries = some final ∧ Gathers
      (old.toList ++ (deliveries.map Delivery.session).filter (Connected · base)) final := by
  cases old with
  | some old =>
    cases hbase
    refine received_gathers hall (by simp) hkey ?_ (fun x hx => mem_append_right _ hx)
      (.singleton base) (hkey _ (by simp))
    simpa using hall.refl base (by simp)
  | none =>
    cases deliveries with
    | nil => cases hbase
    | cons delivery deliveries =>
      cases hbase
      have hrefl := hall.refl delivery.session (by simp)
      rw [map_cons, filter_cons_of_pos (by simpa using hrefl)]
      exact received_gathers hall (by simp) hkey (by simpa using hrefl)
        (fun x hx => mem_cons_of_mem _ hx) ((Gathers.singleton delivery.session).stamp delivery)
        (by simpa using hkey delivery.session (by simp))

end

variable {key : String × String}

/-- A copy that does not connect with the stored session leaves the store as it is. -/
theorem receive_of_unconnected (hget : store.get delivery.session.key = some old)
    (hconn : ¬Connected delivery.session old) : receive store delivery = some store := by
  rw [receive_of_merge (merge_of_unconnected hget hconn)]
  rfl

variable {store' : SessionStore library}

theorem get_of_receive_of_ne (hreceive : receive store delivery = some store')
    (hkey : delivery.session.key ≠ key) : store'.get key = store.get key := by
  obtain ⟨⟨decision, hmerge⟩, hmerged⟩ := merge_eq_accept store delivery.session
  rw [receive_of_merge hmerge, Option.some.injEq] at hreceive
  subst hreceive
  cases haccept : accept (store.get delivery.session.key) delivery.session with
  | none => rfl
  | some merged =>
    rw [Option.elim_some, get_save_stamp, if_neg]
    rw [hmerged merged haccept]
    exact hkey.symm

theorem join_backedUp {merged : InboundGroupSession library}
    (hjoin : join old session = some merged) (hclean : session.backedUp = false) :
    merged.backedUp = false := by
  unfold join at hjoin
  split_ifs at hjoin
  · cases hjoin
    rfl
  all_goals
    cases hjoin
    exact hclean

/-- A ratchet that improves leaves the session in need of a backup, unless the better ratchet
was downloaded from the backup itself. -/
theorem backedUp_of_improved {stored : InboundGroupSession library}
    (hreceive : receive store delivery = some store') (hold : store.get key = some old)
    (hnew : store'.get key = some stored) (hlt : stored.firstKnownIndex < old.firstKnownIndex) :
    stored.backedUp = delivery.fromBackupVersion.isSome := by
  have hchanged : ∀ session, some session = store'.get key → session ≠ old := by
    rintro session hsession rfl
    rw [← hsession, Option.some.injEq] at hnew
    rw [hnew] at hlt
    exact Nat.lt_irrefl _ hlt
  by_cases hkey : delivery.session.key = key
  · subst hkey
    by_cases hconn : Connected delivery.session old
    · obtain ⟨decision, hmerge⟩ := merge_eq_join hold hconn
      rw [receive_of_merge hmerge, Option.some.injEq] at hreceive
      subst hreceive
      cases hjoin : join old delivery.session with
      | none =>
        rw [hjoin] at hchanged
        exact absurd rfl (hchanged old hold.symm)
      | some merged =>
        have hkey : old.key = delivery.session.key := store.key_of_get _ _ hold
        have hjoined := joined_join hkey.symm hconn
        rw [hjoin, Option.getD_some] at hjoined
        have hsaved : delivery.stamp merged = stored := by
          simpa [hjoin, SessionStore.save, hjoined.key_eq, hkey] using hnew
        have hclean := join_backedUp hjoin delivery.not_backedUp
        rw [← hsaved]
        unfold Delivery.stamp
        split <;> simp_all [markAsBackedUp]
    · rw [receive_of_unconnected hold hconn, Option.some.injEq] at hreceive
      exact absurd rfl (hchanged old (hreceive ▸ hold.symm))
  · exact absurd rfl (hchanged old ((get_of_receive_of_ne hreceive hkey).trans hold).symm)

/-- The copies of a session that connect pairwise are joined in whatever order they come. A
copy that does not connect with the stored one changes nothing. Where a copy improves the
stored ratchet, the session is backed up exactly if that copy came from the backup. -/
theorem copies_merge_in_any_order (store : SessionStore library) (key : String × String)
    (deliveries : List (Delivery library)) :
    ((∀ x ∈ (store.get key).toList ++ copiesOf key deliveries,
        ∀ y ∈ (store.get key).toList ++ copiesOf key deliveries, Connected x y) →
      ∃ final, receiveAll store deliveries = some final ∧
        ((store.get key).toList ++ copiesOf key deliveries ≠ [] →
          ∃ stored, final.get key = some stored ∧
            (∃ copy ∈ (store.get key).toList ++ copiesOf key deliveries,
              stored.firstKnownIndex = copy.firstKnownIndex) ∧
            (∀ copy ∈ (store.get key).toList ++ copiesOf key deliveries,
              stored.firstKnownIndex ≤ copy.firstKnownIndex) ∧
            (∃ copy ∈ (store.get key).toList ++ copiesOf key deliveries,
              stored.trustLevel = copy.trustLevel) ∧
            ∀ copy ∈ (store.get key).toList ++ copiesOf key deliveries,
              copy.trustLevel ≤ stored.trustLevel)) ∧
    (∀ delivery old, store.get delivery.session.key = some old →
      ¬Connected delivery.session old → receive store delivery = some store) ∧
    ∀ delivery store' old stored, receive store delivery = some store' →
      store.get key = some old → store'.get key = some stored →
      stored.firstKnownIndex < old.firstKnownIndex →
      stored.backedUp = delivery.fromBackupVersion.isSome := by
  refine ⟨fun hconn => ?_, fun delivery old hget hconn => receive_of_unconnected hget hconn,
    fun delivery store' old stored hreceive hold hnew hlt =>
      backedUp_of_improved hreceive hold hnew hlt⟩
  obtain ⟨final, hfinal, hget⟩ := get_receiveAll deliveries store
  refine ⟨final, hfinal, fun hsome => ?_⟩
  rw [copiesOf_eq] at *
  obtain ⟨base, hbase⟩ := Option.isSome_iff_exists.mp (isSome_head?.mpr hsome)
  obtain ⟨stored, hstored, hgathers⟩ := received_spec
    ⟨fun x hx => hconn x hx x hx, fun x hx y hy _ => hconn y hy x hx,
      fun x hx _ _ z hz _ _ => hconn x hx z hz⟩ key_of_mem_copies hbase
  rw [filter_eq_self.mpr fun x hx => by
    simpa using hconn x (mem_append_right _ hx) base (mem_of_mem_head? hbase)] at hgathers
  obtain ⟨x, hx, -, hindex⟩ := hgathers.ratchet
  obtain ⟨y, hy, hsender⟩ := hgathers.sender
  exact ⟨stored, (hget key).trans hstored, ⟨x, hx, hindex⟩, hgathers.index_le,
    ⟨y, hy, congrArg SenderData.trustNumber hsender⟩, hgathers.trust_le⟩

/-- A copy of the session "megolm" of the room "!room" that starts at this index. -/
def copyAt (index : ℕ) (senderData : SenderData) : InboundGroupSession indexedRatchets where
  inner := ("megolm", index)
  sessionId := "megolm"
  firstKnownIndex := index
  creatorInfo := ⟨"curve", []⟩
  senderData := senderData
  roomId := "!room"
  algorithm := "m.megolm.v1.aes-sha2"
  backedUp := false
  firstKnownIndex_eq := rfl

def deliver (index : ℕ) (senderData : SenderData) (fromBackupVersion : Option String) :
    Delivery indexedRatchets :=
  ⟨copyAt index senderData, fromBackupVersion, rfl⟩

theorem copies_of_megolm_merge :
    ∃ final, receiveAll (.empty : SessionStore indexedRatchets)
        [deliver 5 (.deviceInfo "keys" false) none, deliver 2 .unknown none,
          deliver 5 (.deviceInfo "keys" false) none] = some final ∧
      ∃ stored, final.get ("!room", "megolm") = some stored ∧
        stored.firstKnownIndex ≤ 2 ∧ 1 ≤ stored.trustLevel := by
  obtain ⟨final, hfinal, hstored⟩ := (copies_merge_in_any_order
    (.empty : SessionStore indexedRatchets) ("!room", "megolm")
    [deliver 5 (.deviceInfo "keys" false) none, deliver 2 .unknown none,
      deliver 5 (.deviceInfo "keys" false) none]).1 (by decide)
  obtain ⟨stored, hget, -, hindex, -, htrust⟩ := hstored (by decide)
  refine ⟨final, hfinal, stored, hget, hindex (copyAt 2 .unknown) ?_,
    htrust (copyAt 5 (.deviceInfo "keys" false)) ?_⟩
  · simp [SessionStore.empty, copiesOf, deliver, copyAt, key]
  · simp [SessionStore.empty, copiesOf, deliver, copyAt, key]

/-- A better ratchet from the backup leaves the session backed up. -/
theorem backup_improves_ratchet :
    ∃ store' old stored,
      receive ((.empty : SessionStore indexedRatchets).save (copyAt 5 .unknown))
        (deliver 2 .unknown (some "1")) = some store' ∧
      ((.empty : SessionStore indexedRatchets).save (copyAt 5 .unknown)).get ("!room", "megolm") =
        some old ∧
      store'.get ("!room", "megolm") = some stored ∧
      stored.firstKnownIndex < old.firstKnownIndex ∧ stored.backedUp = true := by
  refine ⟨((SessionStore.empty).save (copyAt 5 .unknown)).save (copyAt 2 .unknown).markAsBackedUp,
    copyAt 5 .unknown, (copyAt 2 .unknown).markAsBackedUp, ?_, rfl, rfl, ?_, rfl⟩
  · rfl
  · decide

end MatrixSdk.ReceivedKeys

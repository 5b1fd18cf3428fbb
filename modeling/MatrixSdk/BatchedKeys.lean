import MatrixSdk.ReceivedKeys

/-!
Batches of room keys. Every key of a batch is merged with what is stored and the results are saved
together, so that the copies of one session in a batch do not see each other.
-/
namespace MatrixSdk.BatchedKeys

open InboundSessions InboundSessions.InboundGroupSession SessionStore ReceivedKeys List

variable {Ratchet : Type} {library : RatchetLibrary Ratchet} {store : SessionStore library}
  {old : Option (InboundGroupSession library)} {delivery last : Delivery library}
  {base stored merged : InboundGroupSession library}
  {all best related : List (InboundGroupSession library)} {deliveries : List (Delivery library)}

/-- The stored session after a batch with these copies of it. -/
def batched (old : Option (InboundGroupSession library)) (deliveries : List (Delivery library)) :
    Option (InboundGroupSession library) :=
  (deliveries.filterMap fun delivery =>
    (accept old delivery.session).map delivery.stamp).getLast?.or old

/-- The last copy that leaves something to be saved is, with the stored session, as good as all
copies of the same ratchet. -/
def LastIsBest (old : Option (InboundGroupSession library)) (deliveries : List (Delivery library)) :
    Prop :=
  ∀ before last after, deliveries = before ++ last :: after → (accept old last.session).isSome →
    (∀ delivery ∈ after, accept old delivery.session = none) →
    ∀ base ∈ (old.toList ++ deliveries.map Delivery.session).head?,
      Connected last.session base ∧
        ∀ copy ∈ deliveries.map Delivery.session, Connected copy base →
          (∃ s ∈ old.toList ++ [last.session], s.firstKnownIndex ≤ copy.firstKnownIndex) ∧
          ∃ s ∈ old.toList ++ [last.session], copy.trustLevel ≤ s.trustLevel

/-- The index of a ratchet determines it, and the level of trust the sender. -/
structure Untied (copies : List (InboundGroupSession library)) : Prop where
  ratchet : ∀ x ∈ copies, ∀ y ∈ copies, Connected x y →
    x.firstKnownIndex = y.firstKnownIndex → x.inner = y.inner
  sender : ∀ x ∈ copies, ∀ y ∈ copies, x.trustLevel = y.trustLevel → x.senderData = y.senderData

/-- Some of the best copies has an index as small, and some is trusted as much. -/
def Matched (best : List (InboundGroupSession library)) (copy : InboundGroupSession library) :
    Prop :=
  (∃ s ∈ best, s.firstKnownIndex ≤ copy.firstKnownIndex) ∧
    ∃ s ∈ best, copy.trustLevel ≤ s.trustLevel

theorem get_importSessions {version : Option String} (store : SessionStore library)
    (hversion : ∀ delivery ∈ deliveries, delivery.fromBackupVersion = version) :
    ∃ final, importSessions store (deliveries.map Delivery.session) version = some final ∧
      ∀ key, final.get key = batched (store.get key)
        (deliveries.filter fun delivery => delivery.session.key = key) := by
  -- the store may change under the other sessions of the batch while it is saved
  suffices hrun : ∀ store' : SessionStore library,
      ∃ final, (mergeAll store version (deliveries.map Delivery.session)).map
        store'.saveInboundGroupSessions = some final ∧
        ∀ key, final.get key = ((deliveries.filter fun delivery =>
          delivery.session.key = key).filterMap fun delivery =>
            (accept (store.get key) delivery.session).map delivery.stamp).getLast?.or
              (store'.get key) from
    hrun store
  induction deliveries with
  | nil => exact fun store' => ⟨store', rfl, fun key => by simp⟩
  | cons delivery deliveries ih =>
    intro store'
    obtain ⟨⟨decision, hmerge⟩, hkey⟩ := merge_eq_accept store delivery.session
    have hstamp : delivery.fromBackupVersion = version := hversion delivery (by simp)
    have ih := ih fun d hd => hversion d (by simp [hd])
    cases haccept : accept (store.get delivery.session.key) delivery.session with
    | none =>
      obtain ⟨final, hfinal, hget⟩ := ih store'
      refine ⟨final, by simpa [mergeAll, hmerge, haccept] using hfinal, fun key => ?_⟩
      rw [hget]
      by_cases heq : delivery.session.key = key
      · subst heq
        simp [haccept]
      · simp [heq]
    | some merged =>
      obtain ⟨final, hfinal, hget⟩ := ih (store'.save (delivery.stamp merged))
      obtain ⟨rest, hrest, -⟩ := Option.map_eq_some_iff.mp hfinal
      refine ⟨final, ?_, fun key => ?_⟩
      · rw [hrest] at hfinal
        simpa [mergeAll, hmerge, haccept, hrest, saveInboundGroupSessions, Delivery.stamp, hstamp]
          using hfinal
      · rw [hget, get_save_stamp, hkey merged haccept]
        by_cases heq : delivery.session.key = key
        · subst heq
          rw [filter_cons_of_pos (by simp), filterMap_cons, haccept, Option.map_some]
          simp only [if_true, getLast?_cons]
          cases getLast? _ <;> rfl
        · simp [heq, Ne.symm heq]

theorem exists_last (old : Option (InboundGroupSession library))
    (deliveries : List (Delivery library)) :
    (∀ delivery ∈ deliveries, accept old delivery.session = none) ∨
      ∃ before last after merged, deliveries = before ++ last :: after ∧
        accept old last.session = some merged ∧
        ∀ delivery ∈ after, accept old delivery.session = none := by
  induction deliveries with
  | nil => exact .inl (by simp)
  | cons delivery deliveries ih =>
    rcases ih with hnone | ⟨before, last, after, merged, rfl, hlast, hafter⟩
    · cases haccept : accept old delivery.session with
      | none => exact .inl (by simpa [haccept] using hnone)
      | some merged => exact .inr ⟨[], delivery, deliveries, merged, rfl, haccept, hnone⟩
    · exact .inr ⟨delivery :: before, last, after, merged, rfl, hlast, hafter⟩

theorem batched_of_last {before after : List (Delivery library)}
    (hlast : accept old last.session = some merged)
    (hafter : ∀ delivery ∈ after, accept old delivery.session = none) :
    batched old (before ++ last :: after) = some (last.stamp merged) := by
  have hnone : (after.filterMap fun delivery =>
      (accept old delivery.session).map delivery.stamp) = [] :=
    filterMap_eq_nil_iff.mpr fun delivery hdelivery => by simp [hafter delivery hdelivery]
  simp [batched, filterMap_append, hlast, hnone]

theorem received_of_refused (h : ∀ delivery ∈ deliveries, accept old delivery.session = none) :
    received old deliveries = old := by
  induction deliveries with
  | nil => rfl
  | cons delivery deliveries ih =>
    rw [received, foldl_cons, h delivery (by simp), Option.map_none, Option.none_or]
    exact ih fun d hd => h d (by simp [hd])

/-- A copy is accepted only if it is better than the stored session in something. -/
theorem better_of_accept {copy : InboundGroupSession library}
    (h : accept (some stored) copy = some merged) :
    copy.firstKnownIndex < stored.firstKnownIndex ∨ stored.trustLevel < copy.trustLevel := by
  simp only [accept, Option.ite_none_right_eq_some] at h
  obtain ⟨-, h⟩ := h
  unfold join at h
  split_ifs at h with hindex _ htrust
  · exact .inl hindex
  · exact .inl hindex
  · exact .inr htrust
  · exact .inr htrust

theorem backedUp_of_accept (h : accept old delivery.session = some merged) :
    (delivery.stamp merged).backedUp = delivery.fromBackupVersion.isSome := by
  have hmerged : merged.backedUp = false := by
    cases old with
    | none => exact Option.some.inj h ▸ delivery.not_backedUp
    | some old =>
      simp only [accept, Option.ite_none_right_eq_some] at h
      exact join_backedUp h.2 delivery.not_backedUp
  unfold Delivery.stamp
  split <;> simp_all [markAsBackedUp]

theorem backedUp_of_received {version : Option String} (old : Option (InboundGroupSession library))
    (hversion : ∀ delivery ∈ deliveries, delivery.fromBackupVersion = version) :
    received old deliveries = old ∨
      ∃ final, received old deliveries = some final ∧ final.backedUp = version.isSome := by
  induction deliveries generalizing old with
  | nil => exact .inl rfl
  | cons delivery deliveries ih =>
    have ih := fun old => ih old fun d hd => hversion d (by simp [hd])
    cases haccept : accept old delivery.session with
    | none => simpa [received, haccept] using ih old
    | some merged =>
      have hmarked := backedUp_of_accept haccept
      rw [hversion delivery (by simp)] at hmarked
      right
      rcases ih (some (delivery.stamp merged)) with h | ⟨final, hfinal, hbackup⟩
      · exact ⟨_, by simpa [received, haccept] using h, hmarked⟩
      · exact ⟨final, by simpa [received, haccept] using hfinal, hbackup⟩

/-- What is put together from the best copies is as good as what is put together from all. -/
theorem equally_good (hsub : ∀ x ∈ best, x ∈ related)
    (hbest : ∀ x ∈ related, Matched best x)
    (hm : Gathers best merged) (hs : Gathers related stored) :
    merged.firstKnownIndex = stored.firstKnownIndex ∧ merged.trustLevel = stored.trustLevel := by
  constructor
  · obtain ⟨x, hx, -, hxindex⟩ := hs.ratchet
    obtain ⟨y, hy, -, hyindex⟩ := hm.ratchet
    obtain ⟨s, hsbest, hle⟩ := (hbest x hx).1
    have hmerged := hm.index_le s hsbest
    have hstored := hs.index_le y (hsub y hy)
    omega
  · obtain ⟨x, hx, hxsender⟩ := hs.sender
    obtain ⟨y, hy, hysender⟩ := hm.sender
    obtain ⟨s, hsbest, hle⟩ := (hbest x hx).2
    have hmerged := hm.trust_le s hsbest
    have hstored := hs.trust_le y (hsub y hy)
    unfold trustLevel at *
    rw [hxsender, hysender] at *
    omega

/-- Sessions put together from copies of one ratchet are the same if they are equally good. -/
theorem eq_of_gathers (hall : Connecting all) (huntied : Untied all) (hbase : base ∈ all)
    (hsub : ∀ x ∈ best, x ∈ related) (hrelated : ∀ x ∈ related, x ∈ all ∧ Connected x base)
    (hm : Gathers best merged) (hs : Gathers related stored) (hkey : merged.key = stored.key)
    (hindex : merged.firstKnownIndex = stored.firstKnownIndex)
    (htrust : merged.trustLevel = stored.trustLevel) (hbackup : merged.backedUp = stored.backedUp) :
    merged = stored := by
  have hmerged := connected_of_gathers hm fun x hx => (hrelated x (hsub x hx)).2
  have hstored := connected_of_gathers hs fun x hx => (hrelated x hx).2
  have hinner : merged.inner = stored.inner := by
    obtain ⟨x, hx, hxinner, hxindex⟩ := hm.ratchet
    obtain ⟨y, hy, hyinner, hyindex⟩ := hs.ratchet
    obtain ⟨hxall, hx⟩ := hrelated x (hsub x hx)
    obtain ⟨hyall, hy⟩ := hrelated y hy
    rw [hxinner, hyinner]
    exact huntied.ratchet x hxall y hyall
      (hall.trans _ hxall _ hbase _ hyall hx (hall.symm _ hyall _ hbase hy))
      (by rw [← hxindex, hindex, hyindex])
  have hsender : merged.senderData = stored.senderData := by
    obtain ⟨x, hx, hxsender⟩ := hm.sender
    obtain ⟨y, hy, hysender⟩ := hs.sender
    rw [hxsender, hysender]
    refine huntied.sender x (hrelated x (hsub x hx)).1 y (hrelated y hy).1 ?_
    rwa [trustLevel, trustLevel, hxsender, hysender] at htrust
  have hcreator := hmerged.creatorInfo_eq.trans hstored.creatorInfo_eq.symm
  have halgorithm := hmerged.algorithm_eq.trans hstored.algorithm_eq.symm
  have hroom : merged.roomId = stored.roomId := congrArg Prod.fst hkey
  have hid : merged.sessionId = stored.sessionId := congrArg Prod.snd hkey
  cases merged
  cases stored
  simp_all

/-- What the last copy leaves is put together from it and the stored session. -/
theorem gathers_last {key : String × String}
    (hkey : ∀ x ∈ old.toList ++ deliveries.map Delivery.session, x.key = key)
    (hlast : last ∈ deliveries) (haccept : accept old last.session = some merged) :
    Gathers (old.toList ++ [last.session]) (last.stamp merged) ∧ (last.stamp merged).key = key := by
  have hlastKey : last.session.key = key := hkey _ (mem_append_right _ (mem_map_of_mem hlast))
  rw [stamp_key]
  cases old with
  | none =>
    cases haccept
    exact ⟨(Gathers.singleton _).stamp last, hlastKey⟩
  | some old =>
    have hold : old.key = key := hkey old (by simp)
    simp only [accept, Option.ite_none_right_eq_some] at haccept
    have hjoined := joined_join (hlastKey.trans hold.symm) haccept.1
    rw [haccept.2] at hjoined
    exact ⟨((Gathers.singleton old).join hjoined).stamp last, hjoined.key_eq.trans hold⟩

/-- A copy that is saved last is better than the stored session in something, so that the separate
calls save something as well. -/
theorem backedUp_of_last {version : Option String}
    (hversion : ∀ delivery ∈ deliveries, delivery.fromBackupVersion = version)
    (hlast : last ∈ deliveries) (haccept : accept old last.session = some merged)
    (hstored : received old deliveries = some stored) (hgathers : Gathers related stored)
    (hmem : last.session ∈ related) : (last.stamp merged).backedUp = stored.backedUp := by
  rw [backedUp_of_accept haccept, hversion last hlast]
  rcases backedUp_of_received old hversion with hsame | ⟨final, hfinal, hbackup⟩
  · obtain rfl := hsame.symm.trans hstored
    have hle := hgathers.index_le last.session hmem
    have hge := hgathers.trust_le last.session hmem
    rcases better_of_accept haccept with hlt | hlt <;> omega
  · rw [hstored, Option.some.injEq] at hfinal
    rw [hfinal, hbackup]

section Column

variable {key : String × String}
  (hall : Connecting (old.toList ++ deliveries.map Delivery.session))
  (hkey : ∀ x ∈ old.toList ++ deliveries.map Delivery.session, x.key = key)
include hall hkey

theorem lastIsBest_of_eq (h : batched old deliveries = received old deliveries) :
    LastIsBest old deliveries := by
  intro before last after hsplit hlast hafter base hbase
  obtain ⟨merged, haccept⟩ := Option.isSome_iff_exists.mp hlast
  obtain ⟨stored, hstored, hgathers⟩ := received_spec hall hkey hbase
  have hmarked := (gathers_last hkey (by simp [hsplit]) haccept).1
  rw [hstored, hsplit, batched_of_last haccept hafter, Option.some.injEq] at h
  rw [h] at hmarked
  refine ⟨?_, fun copy hcopy hconn => ?_⟩
  · cases old with
    | some old =>
      cases hbase
      simp only [accept, Option.ite_none_right_eq_some] at haccept
      exact haccept.1
    | none =>
      -- the batch leaves the last copy itself
      cases haccept
      have hconn : Connected stored base :=
        connected_of_gathers hgathers fun x hx => by simpa using (mem_filter.mp hx).2
      rw [← h, Delivery.stamp] at hconn
      split at hconn <;> exact hconn
  · have hmem : copy ∈ old.toList ++
        (deliveries.map Delivery.session).filter (Connected · base) :=
      mem_append_right _ (mem_filter.mpr ⟨hcopy, by simpa using hconn⟩)
    obtain ⟨x, hx, -, hindex⟩ := hmarked.ratchet
    obtain ⟨y, hy, hsender⟩ := hmarked.sender
    exact ⟨⟨x, hx, hindex ▸ hgathers.index_le copy hmem⟩, y, hy,
      Nat.le_trans (hgathers.trust_le copy hmem)
        (Nat.le_of_eq (congrArg SenderData.trustNumber hsender))⟩

omit hkey in
/-- The copies of the ratchet of the first are matched if those of the batch are. -/
theorem matched_of_related (hbase : base ∈ (old.toList ++ deliveries.map Delivery.session).head?)
    (hbest : ∀ copy ∈ deliveries.map Delivery.session, Connected copy base →
      Matched (old.toList ++ best) copy) :
    ∀ x ∈ old.toList ++ (deliveries.map Delivery.session).filter (Connected · base),
      (x ∈ old.toList ++ deliveries.map Delivery.session ∧ Connected x base) ∧
        Matched (old.toList ++ best) x := by
  intro x hx
  rcases mem_append.mp hx with hx | hx
  · have hmem : x ∈ old.toList ++ best := mem_append_left _ hx
    refine ⟨⟨mem_append_left _ hx, ?_⟩, ⟨x, hmem, Nat.le_refl _⟩, x, hmem, Nat.le_refl _⟩
    cases old with
    | none => cases hx
    | some old =>
      cases hbase
      obtain rfl : x = base := by simpa using hx
      exact hall.refl x (by simp)
  · have hconn : Connected x base := by simpa using (mem_filter.mp hx).2
    have hx := mem_of_mem_filter hx
    exact ⟨⟨mem_append_right _ hx, hconn⟩, hbest x hx hconn⟩

theorem eq_of_lastIsBest (h : LastIsBest old deliveries) {version : Option String}
    (hversion : ∀ delivery ∈ deliveries, delivery.fromBackupVersion = version)
    (huntied : 1 < deliveries.length →
      Untied (old.toList ++ deliveries.map Delivery.session))
    (hreceived : ∀ s, received old deliveries = some s → s.key = key) :
    batched old deliveries = received old deliveries := by
  rcases exists_last old deliveries with
    hnone | ⟨before, last, after, merged, hsplit, haccept, hafter⟩
  · rw [received_of_refused hnone, batched,
      filterMap_eq_nil_iff.mpr fun d hd => by simp [hnone d hd]]
    rfl
  by_cases hlength : 1 < deliveries.length
  · obtain ⟨base, hbase⟩ :
        ∃ base, base ∈ (old.toList ++ deliveries.map Delivery.session).head? := by
      cases old <;> cases before <;> simp [hsplit]
    obtain ⟨hconn, hbest⟩ := h before last after hsplit (by simp [haccept]) hafter base hbase
    obtain ⟨stored, hstored, hgathers⟩ := received_spec hall hkey hbase
    have hmem : last ∈ deliveries := by simp [hsplit]
    obtain ⟨hmarked, hmarkedKey⟩ := gathers_last hkey hmem haccept
    have hrelated := matched_of_related hall hbase hbest
    have hsub : ∀ x ∈ old.toList ++ [last.session],
        x ∈ old.toList ++ (deliveries.map Delivery.session).filter (Connected · base) := by
      intro x hx
      rcases mem_append.mp hx with hx | hx
      · exact mem_append_left _ hx
      · rw [mem_singleton.mp hx]
        exact mem_append_right _ (mem_filter.mpr ⟨mem_map_of_mem hmem, by simpa using hconn⟩)
    conv_lhs => rw [hsplit, batched_of_last haccept hafter]
    rw [hstored, Option.some.injEq]
    obtain ⟨hindex, htrust⟩ :=
      equally_good hsub (fun x hx => (hrelated x hx).2) hmarked hgathers
    exact eq_of_gathers hall (huntied hlength) (mem_of_mem_head? hbase) hsub
      (fun x hx => (hrelated x hx).1) hmarked hgathers
      (hmarkedKey.trans (hreceived stored hstored).symm) hindex htrust
      (backedUp_of_last hversion hmem haccept hstored hgathers (hsub _ (by simp)))
  · obtain ⟨rfl, rfl⟩ : before = [] ∧ after = [] := by
      rw [hsplit] at hlength
      cases before <;> cases after <;> simp at hlength ⊢
    simp [hsplit, batched, received, haccept]

end Column

theorem eq_iff_get {final final' : SessionStore library} :
    final = final' ↔ ∀ key, final.get key = final'.get key := by
  refine ⟨fun h _ => h ▸ rfl, fun h => ?_⟩
  cases final
  cases final'
  simpa using funext h

theorem connected_indexed_iff (x y : InboundGroupSession indexedRatchets) : Connected x y ↔
    x.creatorInfo = y.creatorInfo ∧ x.algorithm = y.algorithm ∧ x.roomId = y.roomId ∧
      x.inner.1 = y.inner.1 := by
  constructor
  · intro h
    refine ⟨h.creatorInfo_eq, h.algorithm_eq, h.roomId_eq, ?_⟩
    by_contra hne
    exact h.compare_ne (if_neg hne)
  · rintro ⟨hcreator, halgorithm, hroom, hname⟩
    unfold Connected compareRatchet
    rw [if_neg (by simp [hcreator, halgorithm, hroom])]
    simp only [indexedRatchets, hname, if_true, SessionOrdering.ofIndexes]
    split_ifs <;> simp

theorem connecting_indexed (copies : List (InboundGroupSession indexedRatchets)) :
    Connecting copies := by
  constructor <;> simp only [connected_indexed_iff]
  · simp
  · rintro x - y - ⟨hcreator, halgorithm, hroom, hname⟩
    exact ⟨hcreator.symm, halgorithm.symm, hroom.symm, hname.symm⟩
  · rintro x - y - z - ⟨hcreator, halgorithm, hroom, hname⟩ ⟨hcreator', halgorithm', hroom', hname'⟩
    exact ⟨hcreator.trans hcreator', halgorithm.trans halgorithm', hroom.trans hroom',
      hname.trans hname'⟩

end MatrixSdk.BatchedKeys

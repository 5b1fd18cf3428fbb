import MatrixSdk.StickyMaps
import MatrixSdk.Traces

/-!
What a subscriber knows of the sticky events of a room. In a careful run it has the events of
the map that are not tombstones, those included that have expired and were not evicted yet;
right after an expiry pass these are the live ones.

Not every run is careful. The subscriber is not told of an expired event that makes room for
another one, that a tombstone replaces or that is cleared away; and an update has no order
between an event that was added and one with the same key that was removed.
-/
namespace MatrixSdk.StickySubscribers

open KeyedMaps StickyMaps Traces List AList Function StickyValue Nat StickyEventsUpdate EphemeralMap
open Subscriber

variable {key : StickyKey}

section Eviction

variable {now : ℕ} {heap : List ExpiryNode} {entries : KeyedMap StickyKey StickyValue}
  {node : ExpiryNode}

instance : IsTrans ExpiryNode ExpiryNode.Le where
  trans a b c hab hbc := by
    unfold ExpiryNode.Le at *
    omega

instance : Std.Total ExpiryNode.Le where
  total a b := by
    unfold ExpiryNode.Le
    omega

/-- The nodes of the heap are in order and have numbers of their own, and every entry has its
node. -/
structure Noded (heap : List ExpiryNode) (entries : KeyedMap StickyKey StickyValue) : Prop where
  sorted : heap.Pairwise ExpiryNode.Le
  distinct : heap.Pairwise fun first second => first.seq ≠ second.seq
  node : ∀ key value, entries.lookup key = some value →
    ⟨value.expiresAt, value.seq, key⟩ ∈ heap

variable {value : StickyValue}

/-- An entry that has expired, and that was there to be seen. -/
def IsDue (now : ℕ) (entries : KeyedMap StickyKey StickyValue) (key : StickyKey) : Prop :=
  ∃ value, entries.lookup key = some value ∧ value.expiresAt ≤ now ∧ value.isTombstone = false

instance (now : ℕ) (entries : KeyedMap StickyKey StickyValue) (key : StickyKey) :
    Decidable (IsDue now entries key) :=
  inferInstanceAs (Decidable (∃ value ∈ entries.lookup key, _))

/-- What an eviction leaves, and the keys that it tells of. -/
structure Evicted (now : ℕ) (heap : List ExpiryNode) (entries : KeyedMap StickyKey StickyValue)
    (result : List StickyKey × List ExpiryNode × KeyedMap StickyKey StickyValue) : Prop where
  lookup : ∀ key, result.2.2.lookup key =
    (entries.lookup key).filter fun value => decide (now < value.expiresAt)
  mem : ∀ key, key ∈ result.1 ↔ IsDue now entries key
  nodup : result.1.Nodup
  noded : Noded result.2.1 result.2.2
  sublist : result.2.1.Sublist heap

theorem isDue_erase (first : StickyKey) :
    IsDue now (entries.erase first) key ↔ key ≠ first ∧ IsDue now entries key := by
  unfold IsDue
  by_cases hkey : key = first
  · subst hkey
    simp
  · simp [hkey, lookup_erase_ne hkey]

section

variable (h : Noded (node :: heap) entries)
include h

/-- A node can go once no entry is left that it stands for. -/
theorem Noded.tail {rest : KeyedMap StickyKey StickyValue}
    (hrest : ∀ key value, rest.lookup key = some value →
      entries.lookup key = some value ∧ ¬(key = node.key ∧ value.seq = node.seq)) :
    Noded heap rest where
  sorted := h.sorted.of_cons
  distinct := h.distinct.of_cons
  node key value hlookup := by
    obtain ⟨hentry, hother⟩ := hrest key value hlookup
    rcases mem_cons.mp (h.node key value hentry) with rfl | hmem
    · exact absurd ⟨rfl, rfl⟩ hother
    · exact hmem

/-- No entry expires before the first node. -/
theorem Noded.head_le (hlookup : entries.lookup key = some value) :
    node.expiresAt ≤ value.expiresAt := by
  rcases mem_cons.mp (h.node key value hlookup) with rfl | hmem
  · exact le_rfl
  · have hle := rel_of_pairwise_cons h.sorted hmem
    simp [ExpiryNode.Le] at hle
    omega

theorem Evicted.of_pass
    (hpass : ∀ value, entries.lookup node.key = some value → value.seq ≠ node.seq)
    (ih : ∀ {entries}, Noded heap entries → Evicted now heap entries (evict now heap entries)) :
    Evicted now (node :: heap) entries (evict now heap entries) := by
  have hrest := ih (h.tail fun key value hlookup =>
    ⟨hlookup, fun ⟨hkey, hseq⟩ => hpass value (hkey ▸ hlookup) hseq⟩)
  exact ⟨hrest.lookup, hrest.mem, hrest.nodup, hrest.noded, hrest.sublist.cons node⟩

theorem Noded.erase_head : Noded heap (entries.erase node.key) := by
  apply h.tail
  intro key value hlookup
  obtain ⟨hkey, hlookup⟩ := KeyedMap.lookup_of_erase hlookup
  exact ⟨hlookup, fun hcurrent => hkey hcurrent.1⟩

/-- The first node is current, and its entry goes. -/
theorem Evicted.of_current (hlookup : entries.lookup node.key = some value)
    (hexpired : value.expiresAt ≤ now)
    (ih : ∀ {entries}, Noded heap entries → Evicted now heap entries (evict now heap entries)) :
    Evicted now (node :: heap) entries
      (if value.isTombstone then (evict now heap (entries.erase node.key)).1
        else node.key :: (evict now heap (entries.erase node.key)).1,
        (evict now heap (entries.erase node.key)).2) := by
  have hrest := ih h.erase_head
  have hmem : ∀ key, key ∈ (evict now heap (entries.erase node.key)).1 ↔
      key ≠ node.key ∧ IsDue now entries key := fun key =>
    (hrest.mem key).trans (isDue_erase node.key)
  refine ⟨fun key => ?_, fun key => ?_, ?_, hrest.noded, hrest.sublist.cons node⟩
  · rw [hrest.lookup]
    by_cases hkey : key = node.key
    · subst hkey
      rw [lookup_erase, hlookup, Option.filter_some, if_neg (by simpa using hexpired)]
      rfl
    · rw [lookup_erase_ne hkey]
  · have hfirst : IsDue now entries node.key ↔ value.isTombstone = false := by
      simp [IsDue, hlookup, hexpired]
    by_cases hkey : key = node.key
    · subst hkey
      rw [hfirst]
      cases value.isTombstone <;> simp [hmem]
    · cases value.isTombstone <;> simp [hmem, hkey]
  · cases value.isTombstone with
    | true => exact hrest.nodup
    | false => exact nodup_cons.mpr ⟨fun hin => ((hmem _).mp hin).1 rfl, hrest.nodup⟩

end

theorem evicted (h : Noded heap entries) : Evicted now heap entries (evict now heap entries) := by
  induction heap generalizing entries with
  | nil =>
    have hnone : ∀ key, entries.lookup key = none := by
      intro key
      by_contra hsome
      obtain ⟨value, hlookup⟩ := Option.ne_none_iff_exists'.mp hsome
      exact absurd (h.node key value hlookup) (by simp)
    refine ⟨fun key => ?_, fun key => ?_, nodup_nil, h, Sublist.refl _⟩
    · simp [evict, hnone key]
    · simp [evict, IsDue, hnone key]
  | cons node heap ih =>
    unfold evict
    by_cases hnow : now < node.expiresAt
    · rw [if_pos hnow]
      -- everything in the heap is still to come
      refine ⟨fun key => ?_, fun key => ?_, nodup_nil, h, Sublist.refl _⟩
      · cases hlookup : entries.lookup key with
        | none => rfl
        | some value =>
          have hle := h.head_le hlookup
          rw [Option.filter_some, if_pos]
          simp only [decide_eq_true_eq]
          omega
      · simp only [not_mem_nil, false_iff]
        rintro ⟨value, hlookup, hexpired, -⟩
        have hle := h.head_le hlookup
        omega
    · rw [if_neg hnow]
      cases hlookup : entries.lookup node.key with
      | none => exact .of_pass h (by simp [hlookup]) fun hnoded => ih hnoded
      | some value =>
        by_cases hseq : value.seq = node.seq
        · simp only [if_pos hseq]
          have hexpired : value.expiresAt ≤ now := by
            have hsame : value.expiresAt = node.expiresAt := by
              rcases mem_cons.mp (h.node node.key value hlookup) with heq | hmem
              · exact congrArg ExpiryNode.expiresAt heq
              · exact absurd hseq.symm (rel_of_pairwise_cons h.distinct hmem)
            omega
          exact .of_current h hlookup hexpired fun hnoded => ih hnoded
        · simp only [if_neg hseq]
          refine .of_pass h (fun value' hlookup' => ?_) fun hnoded => ih hnoded
          rw [hlookup] at hlookup'
          cases hlookup'
          exact hseq

theorem keys_evict_sublist (entries : KeyedMap StickyKey StickyValue) :
    (evict now heap entries).2.2.keys <+ entries.keys := by
  induction heap generalizing entries with
  | nil => exact .refl _
  | cons node heap ih =>
    unfold evict
    split
    · exact .refl _
    · split
      · exact ih entries
      · split
        · exact (ih _).trans (by simpa using erase_sublist)
        · exact ih entries

end Eviction

/-- What a subscriber has, as a function of the key. -/
structure View where
  seen : StickyKey → Option StickyEvent
  strays : List StickyKey

namespace View

variable (view : View)

def hold (event : StickyEvent) : View :=
  { view with seen := Function.update view.seen event.key (some event) }

def drop (key : StickyKey) : View :=
  if (view.seen key).isSome then { view with seen := Function.update view.seen key none }
  else { view with strays := key :: view.strays }

def receive (update : StickyEventsUpdate) : View :=
  (update.removed.map Prod.fst).foldl drop ((update.added ++ update.updated).foldl hold view)

def change : Option Change → View
  | some (.added event) => view.hold event
  | some (.updated event) => view.hold event
  | some (.removed key) => view.drop key
  | none => view

end View

def view (subscriber : Subscriber) : View :=
  ⟨fun key => subscriber.seen.lookup key, subscriber.strays⟩

section Views

variable (subscriber : Subscriber)

theorem view_hold (event : StickyEvent) :
    view (subscriber.hold event) = (view subscriber).hold event := by
  simp only [view, hold, View.hold, View.mk.injEq, and_true]
  funext key
  by_cases hkey : key = event.key
  · subst hkey
    rw [lookup_insert, update_self]
  · rw [lookup_insert_ne hkey, update_of_ne hkey]

theorem view_drop : view (subscriber.drop key) = (view subscriber).drop key := by
  unfold Subscriber.drop View.drop
  by_cases hmem : key ∈ subscriber.seen
  · have hsome : ((view subscriber).seen key).isSome = true := lookup_isSome.mpr hmem
    rw [if_pos hmem, if_pos hsome]
    simp only [view, View.mk.injEq, and_true]
    funext other
    by_cases hother : other = key
    · subst hother
      rw [lookup_erase, update_self]
    · rw [lookup_erase_ne hother, update_of_ne hother]
  · have hnone : ¬((view subscriber).seen key).isSome = true := fun hsome =>
      hmem (lookup_isSome.mp hsome)
    rw [if_neg hmem, if_neg hnone]
    rfl

theorem view_receive (update : StickyEventsUpdate) :
    view (subscriber.receive update) = (view subscriber).receive update := by
  have hholds (events : List StickyEvent) (subscriber : Subscriber) :
      events.foldl View.hold (view subscriber) = view (events.foldl hold subscriber) :=
    List.foldl_hom view fun subscriber event => (view_hold subscriber event).symm
  have hdrops (keys : List StickyKey) (subscriber : Subscriber) :
      keys.foldl View.drop (view subscriber) = view (keys.foldl drop subscriber) :=
    List.foldl_hom view fun subscriber key => (view_drop subscriber).symm
  rw [receive, View.receive, hholds, hdrops]

variable {view : View} {event : StickyEvent} {update : StickyEventsUpdate}

theorem View.hold_drop (hkey : event.key ≠ key) :
    (view.hold event).drop key = (view.drop key).hold event := by
  have hseen : (view.hold event).seen key = view.seen key := update_of_ne hkey.symm _ _
  unfold View.drop
  rw [hseen]
  split
  · simp only [View.hold, View.mk.injEq, and_true]
    exact update_comm hkey _ _ _
  · rfl

variable {keys : List StickyKey}

theorem View.foldl_drop_hold (hkeys : event.key ∉ keys) :
    keys.foldl View.drop (view.hold event) = (keys.foldl View.drop view).hold event := by
  induction keys generalizing view with
  | nil => rfl
  | cons key keys ih =>
    rw [mem_cons, not_or] at hkeys
    rw [foldl_cons, View.hold_drop hkeys.1, ih hkeys.2, foldl_cons]

theorem View.foldl_hold_hold {events : List StickyEvent}
    (hevents : event.key ∉ events.map StickyEvent.key) :
    events.foldl View.hold (view.hold event) = (events.foldl View.hold view).hold event := by
  induction events generalizing view with
  | nil => rfl
  | cons other events ih =>
    rw [map_cons, mem_cons, not_or] at hevents
    have hswap : (view.hold event).hold other = (view.hold other).hold event := by
      unfold View.hold
      simp only [View.mk.injEq, and_true]
      exact update_comm hevents.1 _ _ _
    rw [foldl_cons, hswap, ih hevents.2, foldl_cons]

/-- Keys that the subscriber has are removed without a stray. -/
theorem View.foldl_drop (hnodup : keys.Nodup)
    (hseen : ∀ key ∈ keys, (view.seen key).isSome = true) :
    keys.foldl View.drop view =
      { view with seen := fun key => if key ∈ keys then none else view.seen key } := by
  induction keys generalizing view with
  | nil => simp
  | cons first keys ih =>
    obtain ⟨hfirst, hnodup⟩ := nodup_cons.mp hnodup
    have hdrop : view.drop first =
        { view with seen := Function.update view.seen first none } := by
      unfold View.drop
      rw [if_pos (hseen first mem_cons_self)]
    rw [foldl_cons, hdrop, ih hnodup]
    · simp only [View.mk.injEq, and_true]
      funext key
      by_cases hkey : key = first
      · subst hkey
        simp [hfirst]
      · simp [hkey]
    · intro key hmem
      have hne : key ≠ first := fun heq => hfirst (heq ▸ hmem)
      show (Function.update view.seen first none key).isSome = true
      rw [update_of_ne hne]
      exact hseen key (mem_cons_of_mem _ hmem)

end Views

/-- What there is to see in a map, expired or not. -/
def visible (map : EphemeralMap) (key : StickyKey) : Option StickyEvent :=
  (map.entries.lookup key).bind fun value =>
    if value.isTombstone then none else some (eventFromEntry key value)

def LiveAt (now : ℕ) (map : EphemeralMap) (key : StickyKey) : Prop :=
  ∃ value, map.entries.lookup key = some value ∧ value.isLive now = true

structure WellFormed (map : EphemeralMap) : Prop extends Noded map.expiryHeap map.entries where
  fresh : ∀ node ∈ map.expiryHeap, node.seq < map.nextSeq

section Maps

variable {now : ℕ} {map : EphemeralMap} {candidate : Candidate}

theorem wellFormed_new : WellFormed .new where
  sorted := List.Pairwise.nil
  distinct := List.Pairwise.nil
  node key value hlookup := by cases hlookup
  fresh node hmem := by cases hmem

/-- Another map in which at most some tombstones are gone. -/
structure Shrinks (now : ℕ) (map shrunk : EphemeralMap) : Prop where
  wellFormed : WellFormed shrunk
  lookup : ∀ key value, shrunk.entries.lookup key = some value →
    map.entries.lookup key = some value
  sees : visible shrunk = visible map
  live : ∀ key, LiveAt now map key → LiveAt now shrunk key
  length : shrunk.entries.keys.length ≤ map.entries.keys.length

section

variable (h : WellFormed map)
include h

theorem Shrinks.refl : Shrinks now map map :=
  ⟨h, fun _ _ hlookup => hlookup, rfl, fun _ hlive => hlive, le_rfl⟩

theorem WellFormed.evictExpired : WellFormed (map.evictExpired now).2 where
  toNoded := (evicted h.toNoded).noded
  fresh node hmem := h.fresh node ((evicted h.toNoded).sublist.subset hmem)

theorem WellFormed.lookup_evictExpired :
    (map.evictExpired now).2.entries.lookup key =
      (map.entries.lookup key).filter fun value => decide (now < value.expiresAt) :=
  (evicted h.toNoded).lookup key

/-- What can be seen after an expiry pass is what was not due. -/
theorem visible_evictExpired :
    visible (map.evictExpired now).2 =
      fun key => if key ∈ (map.evictExpired now).1 then none else visible map key := by
  funext key
  have hmem : key ∈ (map.evictExpired now).1 ↔ IsDue now map.entries key :=
    (evicted h.toNoded).mem key
  by_cases hdue : IsDue now map.entries key
  · rw [if_pos (hmem.mpr hdue)]
    obtain ⟨value, hlookup, hexpired, -⟩ := hdue
    simp [visible, h.lookup_evictExpired, hlookup, hexpired]
  · rw [if_neg (mt hmem.mp hdue)]
    unfold visible
    rw [h.lookup_evictExpired]
    cases hlookup : map.entries.lookup key with
    | none => rfl
    | some value =>
      by_cases hnow : now < value.expiresAt
      · rw [Option.filter_some, if_pos (decide_eq_true hnow)]
      · have htombstone : value.isTombstone = true := by
          by_contra hvisible
          exact hdue ⟨value, hlookup, Nat.le_of_not_lt hnow, by simpa using hvisible⟩
        simp [hnow, htombstone]

/-- An eviction where nothing is due. -/
theorem Shrinks.evictExpired (hdue : ∀ key, ¬IsDue now map.entries key) :
    Shrinks now map (map.evictExpired now).2 where
  wellFormed := h.evictExpired
  lookup key value hlookup := by
    rw [h.lookup_evictExpired, Option.filter_eq_some_iff] at hlookup
    exact hlookup.1
  sees := by
    funext key
    have hnone : key ∉ (map.evictExpired now).1 := fun hmem =>
      hdue key (((evicted h.toNoded).mem key).mp hmem)
    simp [visible_evictExpired h, if_neg hnone]
  live key := by
    rintro ⟨value, hlookup, hlive⟩
    refine ⟨value, ?_, hlive⟩
    have hnow : now < value.expiresAt := by
      simp [isLive] at hlive
      exact hlive.2
    rw [h.lookup_evictExpired, hlookup]
    simp [hnow]
  length := (keys_evict_sublist map.entries).length_le

end

/-- What `insert` can do: it keeps the map, but for tombstones that make room, or it goes on to
put the candidate in. -/
theorem insert_cases (h : WellFormed map)
    (hroom : map.entries.keys.length < maxEntries ∨ ∀ key, ¬IsDue now map.entries key) :
    ∃ shrunk, Shrinks now map shrunk ∧
      (map.insert now candidate = (none, shrunk) ∨
        now < candidate.expiresAt ∧ ∃ wasLive, map.insert now candidate =
          shrunk.put candidate wasLive ∧
          (wasLive = true ↔ LiveAt now shrunk candidate.key)) := by
  unfold EphemeralMap.insert
  by_cases hexpired : candidate.expiresAt ≤ now
  · exact ⟨map, .refl h, .inl (if_pos hexpired)⟩
  rw [if_neg hexpired]
  have hnow : now < candidate.expiresAt := Nat.lt_of_not_le hexpired
  cases hlookup : map.entries.lookup candidate.key with
  | some current =>
    refine ⟨map, .refl h, ?_⟩
    by_cases hsame : current.eventId = candidate.eventId
    · exact .inl (if_pos hsame)
    by_cases hrank : rankLe candidate current = true
    · exact .inl (by simp [hsame, hrank])
    · refine .inr ⟨hnow, current.isLive now, by simp [hsame, hrank], ?_⟩
      simp [LiveAt, hlookup]
  | none =>
    by_cases hfull : maxEntries ≤ map.entries.keys.length
    · have hdue := hroom.resolve_left (by omega)
      refine ⟨_, .evictExpired h hdue, ?_⟩
      by_cases hstill : maxEntries ≤ (map.evictExpired now).2.entries.keys.length
      · exact .inl (by simp [hfull, hstill])
      · refine .inr ⟨hnow, false, by simp [hfull, hstill], ?_⟩
        simp [LiveAt, h.lookup_evictExpired, hlookup]
    · refine ⟨map, .refl h, .inr ⟨hnow, false, by simp [hfull], ?_⟩⟩
      simp [LiveAt, hlookup]

def candidateEvent (candidate : Candidate) : StickyEvent :=
  ⟨candidate.key, candidate.eventId, candidate.kind, min candidate.expiresAt maxSafeUint⟩

def candidateValue (candidate : Candidate) (seq : ℕ) : StickyValue :=
  ⟨candidate.eventId, candidate.orderTs, candidate.expiresAt, candidate.isTombstone,
    candidate.kind, seq⟩

variable {wasLive : Bool}

theorem entries_put :
    (map.put candidate wasLive).2.entries =
      map.entries.insert candidate.key (candidateValue candidate map.nextSeq) := rfl

theorem lookup_put_self :
    (map.put candidate wasLive).2.entries.lookup candidate.key =
      some (candidateValue candidate map.nextSeq) := by
  rw [entries_put, lookup_insert]

theorem lookup_put_of_ne (hkey : key ≠ candidate.key) :
    (map.put candidate wasLive).2.entries.lookup key = map.entries.lookup key := by
  rw [entries_put, lookup_insert_ne hkey]

theorem put_change : (map.put candidate wasLive).1 =
    if candidate.isTombstone then if wasLive then some (.removed candidate.key) else none
    else if wasLive then some (.updated (candidateEvent candidate))
    else some (.added (candidateEvent candidate)) := by
  have hevent : (map.put candidate wasLive).2.event candidate.key =
      some (eventFromEntry candidate.key (candidateValue candidate map.nextSeq)) := by
    unfold event
    rw [lookup_put_self, Option.map_some]
  cases htombstone : candidate.isTombstone with
  | true => cases wasLive <;> simp [put, htombstone]
  | false =>
    cases wasLive with
    | true =>
      have hput : (map.put candidate true).1 =
          ((map.put candidate true).2.event candidate.key).map .updated := by
        simp [put, htombstone]
      rw [hput, hevent]
      rfl
    | false =>
      have hput : (map.put candidate false).1 =
          ((map.put candidate false).2.event candidate.key).map .added := by
        simp [put, htombstone]
      rw [hput, hevent]
      rfl

theorem visible_put : visible (map.put candidate wasLive).2 =
    Function.update (visible map) candidate.key
      (if candidate.isTombstone then none else some (candidateEvent candidate)) := by
  funext key
  by_cases hkey : key = candidate.key
  · subst hkey
    rw [update_self]
    unfold visible
    rw [lookup_put_self]
    rfl
  · rw [update_of_ne hkey]
    unfold visible
    rw [lookup_put_of_ne hkey]

theorem LiveAt.visible (h : LiveAt now map key) : (visible map key).isSome = true := by
  obtain ⟨value, hlookup, hlive⟩ := h
  have htombstone : value.isTombstone = false := by
    simp only [isLive, Bool.and_eq_true, Bool.not_eq_true'] at hlive
    exact hlive.1
  simp [StickySubscribers.visible, hlookup, htombstone]

/-- What is neither live nor due cannot be seen. -/
theorem visible_eq_none (hlive : ¬LiveAt now map key) (hdue : ¬IsDue now map.entries key) :
    visible map key = none := by
  unfold visible
  cases hlookup : map.entries.lookup key with
  | none => rfl
  | some value =>
    cases htombstone : value.isTombstone with
    | true => simp [htombstone]
    | false =>
      by_cases hnow : now < value.expiresAt
      · exact absurd ⟨value, hlookup, by simp [isLive, htombstone, hnow]⟩ hlive
      · exact absurd ⟨value, hlookup, Nat.le_of_not_lt hnow, htombstone⟩ hdue

/-- The change that is reported is the one that can be seen, unless a tombstone comes for
something that is due. -/
theorem view_put (hdue : candidate.isTombstone = true → ¬IsDue now map.entries candidate.key)
    (hlive : wasLive = true ↔ LiveAt now map candidate.key) :
    (⟨visible map, []⟩ : View).change (map.put candidate wasLive).1 =
      ⟨visible (map.put candidate wasLive).2, []⟩ := by
  rw [put_change, visible_put]
  cases htombstone : candidate.isTombstone with
  | false => cases wasLive <;> simp [View.change, View.hold, candidateEvent]
  | true =>
    cases wasLive with
    | true => simp [View.change, View.drop, (hlive.mp rfl).visible]
    | false =>
      have hnone : visible map candidate.key = none :=
        visible_eq_none (fun h => by cases hlive.mpr h) (hdue htombstone)
      have hsame : Function.update (visible map) candidate.key none = visible map := by
        rw [← hnone]
        exact update_eq_self _ _
      simp [View.change, hsame]

theorem WellFormed.put (h : WellFormed map) : WellFormed (map.put candidate wasLive).2 where
  sorted := h.sorted.orderedInsert _ _
  distinct := by
    have hperm := perm_orderedInsert ExpiryNode.Le
      ⟨candidate.expiresAt, map.nextSeq, candidate.key⟩ map.expiryHeap
    refine (hperm.pairwise_iff fun hne => Ne.symm hne).mpr (pairwise_cons.mpr ⟨?_, h.distinct⟩)
    intro node hmem
    exact (Nat.ne_of_lt (h.fresh node hmem)).symm
  node key value hlookup := by
    apply (mem_orderedInsert _).mpr
    by_cases hkey : key = candidate.key
    · subst hkey
      rw [lookup_put_self] at hlookup
      cases hlookup
      exact .inl rfl
    · rw [lookup_put_of_ne hkey] at hlookup
      exact .inr (h.node key value hlookup)
  fresh node hmem := by
    rcases (mem_orderedInsert _).mp hmem with rfl | hmem
    · exact lt_succ_self _
    · exact lt_succ_of_lt (h.fresh node hmem)

end Maps

/-- The candidates that are still to come can be put in without a loss for the subscriber: no
tombstone has a key in common with another candidate or comes for an entry that is due, and
there is room for all of them, or nothing that is due could make room. -/
structure Ready (now : ℕ) (map : EphemeralMap) (candidates : List Candidate) : Prop where
  apart : candidates.Pairwise fun first second =>
    first.key = second.key → first.isTombstone = false ∧ second.isTombstone = false
  tombstones : ∀ candidate ∈ candidates, candidate.isTombstone = true →
    ¬IsDue now map.entries candidate.key
  room : map.entries.keys.length + candidates.length ≤ maxEntries ∨
    ∀ key, ¬IsDue now map.entries key

variable {event : StickyEvent}

section Batches

variable {now : ℕ} {map shrunk : EphemeralMap} {candidate : Candidate}
  {candidates : List Candidate} {wasLive : Bool}

theorem IsDue.of_shrinks (h : IsDue now shrunk.entries key) (hshrinks : Shrinks now map shrunk) :
    IsDue now map.entries key := by
  obtain ⟨value, hlookup, hdue⟩ := h
  exact ⟨value, hshrinks.lookup key value hlookup, hdue⟩

/-- What was put in is not due, and everything else is as it was. -/
theorem IsDue.of_put (h : IsDue now (map.put candidate wasLive).2.entries key)
    (hnow : now < candidate.expiresAt) : IsDue now map.entries key := by
  obtain ⟨value, hlookup, hexpired, htombstone⟩ := h
  by_cases hkey : key = candidate.key
  · subst hkey
    rw [lookup_put_self] at hlookup
    cases hlookup
    have hexpired : candidate.expiresAt ≤ now := hexpired
    omega
  · rw [lookup_put_of_ne hkey] at hlookup
    exact ⟨value, hlookup, hexpired, htombstone⟩

theorem length_put_le :
    (map.put candidate wasLive).2.entries.keys.length ≤ map.entries.keys.length + 1 := by
  rw [entries_put, keys_insert, length_cons]
  exact succ_le_succ length_erase_le

theorem Ready.of_due (h : Ready now map (candidate :: candidates)) {next : EphemeralMap}
    (hdue : ∀ key, IsDue now next.entries key → IsDue now map.entries key)
    (hlength : next.entries.keys.length ≤ map.entries.keys.length + 1) :
    Ready now next candidates where
  apart := h.apart.of_cons
  tombstones other hmem htombstone hother :=
    h.tombstones other (mem_cons_of_mem _ hmem) htombstone (hdue _ hother)
  room := by
    rcases h.room with hroom | hnone
    · left
      rw [length_cons] at hroom
      omega
    · exact .inr fun key hkey => hnone key (hdue key hkey)

theorem LiveAt.of_put (h : LiveAt now map key)
    (hkey : candidate.isTombstone = true → candidate.key ≠ key) (hnow : now < candidate.expiresAt) :
    LiveAt now (map.put candidate wasLive).2 key := by
  by_cases hsame : key = candidate.key
  · subst hsame
    refine ⟨_, lookup_put_self, ?_⟩
    have htombstone : candidate.isTombstone = false := by
      by_contra htrue
      exact hkey (by simpa using htrue) rfl
    simp [isLive, candidateValue, htombstone, hnow]
  · obtain ⟨value, hlookup, hlive⟩ := h
    exact ⟨value, by rw [lookup_put_of_ne hsame]; exact hlookup, hlive⟩

/-- Where a batch has got to. The update so far tells the subscriber what there is to see; what
it adds or updates is live; and nothing that is still to come gets in the way of it. -/
structure Batch (now : ℕ) (start : View) (candidates : List Candidate)
    (update : StickyEventsUpdate) (map : EphemeralMap) : Prop where
  wellFormed : WellFormed map
  ready : Ready now map candidates
  synced : start.receive update = ⟨visible map, []⟩
  live : ∀ event ∈ update.added ++ update.updated, LiveAt now map event.key
  shown : ∀ event ∈ update.added ++ update.updated, ∀ candidate ∈ candidates,
    candidate.isTombstone = true → candidate.key ≠ event.key
  removed : ∀ key ∈ update.removed.map Prod.fst, ∀ candidate ∈ candidates, candidate.key ≠ key

variable {start : View} {update : StickyEventsUpdate}

theorem Batch.shrink (h : Batch now start (candidate :: candidates) update map)
    (hshrinks : Shrinks now map shrunk) : Batch now start candidates update shrunk where
  wellFormed := hshrinks.wellFormed
  ready := h.ready.of_due (fun _ hdue => hdue.of_shrinks hshrinks) (le_succ_of_le hshrinks.length)
  synced := by
    rw [hshrinks.sees]
    exact h.synced
  live event hmem := hshrinks.live _ (h.live event hmem)
  shown event hmem other hother := h.shown event hmem other (mem_cons_of_mem _ hother)
  removed key hmem other hother := h.removed key hmem other (mem_cons_of_mem _ hother)

variable {shown : StickyEvent}

theorem mem_push_shown :
    event ∈ (update.push (if wasLive then some (.updated shown) else some (.added shown))).added ++
        (update.push (if wasLive then some (.updated shown) else some (.added shown))).updated ↔
      event ∈ update.added ++ update.updated ∨ event = shown := by
  cases wasLive with
  | true => simp [push, or_assoc]
  | false =>
    simp only [push, Bool.false_eq_true, if_false, mem_append, mem_singleton]
    exact or_right_comm

section

variable (h : Batch now start (candidate :: candidates) update map)
include h

section

variable (hshrinks : Shrinks now map shrunk) (hnow : now < candidate.expiresAt)
include hshrinks hnow

/-- A candidate that is not a tombstone is added or updated. -/
theorem Batch.hold (htombstone : candidate.isTombstone = false)
    (hlive : wasLive = true ↔ LiveAt now shrunk candidate.key) :
    Batch now start candidates (update.push (shrunk.put candidate wasLive).1)
      (shrunk.put candidate wasLive).2 := by
  have hview := view_put (by simp [htombstone]) hlive
  have hremoved : candidate.key ∉ update.removed.map Prod.fst := fun hmem =>
    h.removed _ hmem candidate mem_cons_self rfl
  have hsynced : start.receive update = ⟨visible shrunk, []⟩ := by
    rw [hshrinks.sees]
    exact h.synced
  rw [put_change, htombstone] at hview ⊢
  simp only [Bool.false_eq_true, if_false] at hview ⊢
  refine ⟨hshrinks.wellFormed.put, ?_, ?_, ?_, ?_, ?_⟩
  · exact h.ready.of_due (fun _ hdue => (hdue.of_put hnow).of_shrinks hshrinks)
      (length_put_le.trans (succ_le_succ hshrinks.length))
  · rw [← hview]
    cases wasLive with
    | true =>
      show start.receive (update.push (some (.updated _))) = _
      simp only [View.receive, push]
      rw [← append_assoc, foldl_concat, View.foldl_drop_hold hremoved]
      exact congrArg (View.hold · _) hsynced
    | false =>
      -- what was shown by this update before is live, and the candidate's key is not
      have hupdated : candidate.key ∉ update.updated.map StickyEvent.key := by
        intro hmem
        obtain ⟨event, hevent, hkey⟩ := mem_map.mp hmem
        have hwas := hshrinks.live _ (h.live event (mem_append_right _ hevent))
        rw [hkey] at hwas
        exact absurd (hlive.mpr hwas) (by simp)
      show start.receive (update.push (some (.added _))) = _
      simp only [View.receive, push]
      rw [foldl_append, foldl_concat, View.foldl_hold_hold hupdated, ← foldl_append,
        View.foldl_drop_hold hremoved]
      exact congrArg (View.hold · _) hsynced
  · intro event hmem
    rcases mem_push_shown.mp hmem with hmem | rfl
    · exact (hshrinks.live _ (h.live event hmem)).of_put (by simp [htombstone]) hnow
    · exact ⟨_, lookup_put_self, by simp [isLive, candidateValue, htombstone, hnow]⟩
  · intro event hmem other hother hother'
    rcases mem_push_shown.mp hmem with hmem | rfl
    · exact h.shown event hmem other (mem_cons_of_mem _ hother) hother'
    · intro hkey
      have hapart := (rel_of_pairwise_cons h.ready.apart hother hkey.symm).2
      rw [hother'] at hapart
      cases hapart
  · cases wasLive <;>
      exact fun key hmem other hother => h.removed key hmem other (mem_cons_of_mem _ hother)

/-- A tombstone removes what is live, and nothing else. -/
theorem Batch.bury (htombstone : candidate.isTombstone = true)
    (hlive : wasLive = true ↔ LiveAt now shrunk candidate.key) :
    Batch now start candidates (update.push (shrunk.put candidate wasLive).1)
      (shrunk.put candidate wasLive).2 := by
  have hdue : ¬IsDue now shrunk.entries candidate.key := fun hdue =>
    h.ready.tombstones candidate mem_cons_self htombstone (hdue.of_shrinks hshrinks)
  have hview := view_put (fun _ => hdue) hlive
  have hsynced : start.receive update = ⟨visible shrunk, []⟩ := by
    rw [hshrinks.sees]
    exact h.synced
  have hready : Ready now (shrunk.put candidate wasLive).2 candidates :=
    h.ready.of_due (fun _ hdue => (hdue.of_put hnow).of_shrinks hshrinks)
      (length_put_le.trans (succ_le_succ hshrinks.length))
  have hkept : ∀ event ∈ update.added ++ update.updated,
      LiveAt now (shrunk.put candidate wasLive).2 event.key := fun event hmem =>
    (hshrinks.live _ (h.live event hmem)).of_put
      (h.shown event hmem candidate mem_cons_self) hnow
  have hshown := fun event hmem other hother =>
    h.shown event hmem other (mem_cons_of_mem _ hother)
  have hremoved := fun key hmem other hother =>
    h.removed key hmem other (mem_cons_of_mem _ hother)
  rw [put_change, htombstone] at hview ⊢
  cases wasLive with
  | false =>
    refine ⟨hshrinks.wellFormed.put, hready, ?_, hkept, hshown, hremoved⟩
    rw [← hview]
    exact hsynced
  | true =>
    refine ⟨hshrinks.wellFormed.put, hready, ?_, hkept, hshown, ?_⟩
    · rw [← hview, if_pos rfl, if_pos rfl, ← hsynced]
      simp [View.receive, push, foldl_append]
      rfl
    · intro key hmem other hother hkey
      rw [if_pos rfl, if_pos rfl] at hmem
      simp only [push, map_append, mem_append] at hmem
      rcases hmem with hmem | hmem
      · exact hremoved key hmem other hother hkey
      · rw [mem_singleton.mp hmem] at hkey
        have hapart := (rel_of_pairwise_cons h.ready.apart hother hkey.symm).1
        rw [htombstone] at hapart
        cases hapart

end

theorem Batch.insert :
    Batch now start candidates (update.push (map.insert now candidate).1)
      (map.insert now candidate).2 := by
  have hroom : map.entries.keys.length < maxEntries ∨ ∀ key, ¬IsDue now map.entries key := by
    rcases h.ready.room with hroom | hnone
    · left
      rw [length_cons] at hroom
      omega
    · exact .inr hnone
  obtain ⟨shrunk, hshrinks, hsame | ⟨hnow, wasLive, hput, hlive⟩⟩ :=
    insert_cases h.wellFormed hroom
  · rw [hsame]
    exact h.shrink hshrinks
  · rw [hput]
    cases htombstone : candidate.isTombstone with
    | false => exact h.hold hshrinks hnow htombstone hlive
    | true => exact h.bury hshrinks hnow htombstone hlive

end

theorem Batch.apply (h : Batch now start candidates update map) :
    ∃ update' map', candidates.foldl (fun state candidate =>
        (state.1.push (EphemeralMap.insert state.2 now candidate).1,
          (state.2.insert now candidate).2)) (update, map) = (update', map') ∧
      Batch now start [] update' map' := by
  induction candidates generalizing update map with
  | nil => exact ⟨update, map, rfl, h⟩
  | cons candidate candidates ih => exact ih h.insert

end Batches

/-- The subscriber has what there is to see in the map, and was told of no stray. -/
structure Synced (world : World) : Prop where
  wellFormed : WellFormed world.events.map
  synced : view world.subscriber = ⟨visible world.events.map, []⟩

/-- A batch comes when the map is ready for it, and the map is cleared when nothing in it is
due. -/
def Careful (world : World) : Action → Prop
  | .ingest elapsed candidates => Ready (world.now + elapsed) world.events.map candidates
  | .clear elapsed => ∀ key, ¬IsDue (world.now + elapsed) world.events.map.entries key
  | .park _ | .takePending _ | .expire _ => True

def CarefulStep (world : World) (action : Action) (next : World) : Prop :=
  Careful world action ∧ next = world.act action

section Runs

variable {world : World} {elapsed : ℕ}

theorem Synced.ingest (h : Synced world) {candidates : List Candidate}
    (hready : Ready (world.now + elapsed) world.events.map candidates) :
    Synced (world.act (.ingest elapsed candidates)) := by
  by_cases hnil : candidates = []
  · subst hnil
    exact ⟨h.wellFormed, h.synced⟩
  · have hbatch : Batch (world.now + elapsed) (view world.subscriber) candidates .empty
        world.events.map :=
      ⟨h.wellFormed, hready, h.synced, by simp [StickyEventsUpdate.empty],
        by simp [StickyEventsUpdate.empty], by simp [StickyEventsUpdate.empty]⟩
    obtain ⟨update, map, happly, hdone⟩ := hbatch.apply
    have hact : world.act (.ingest elapsed candidates) =
        world.publish elapsed update { world.events with map := map } := by
      simp only [World.act, StickyEvents.ingest, if_neg hnil, EphemeralMap.apply, happly]
    rw [hact]
    refine ⟨hdone.wellFormed, ?_⟩
    show view (world.subscriber.receive update) = _
    rw [view_receive]
    exact hdone.synced

theorem receive_ofRemoved (start : View) (reason : RemovalReason) (keys : List StickyKey) :
    start.receive (.ofRemoved reason keys) = keys.foldl View.drop start := by
  have hkeys : (keys.map fun key => (key, reason)).map Prod.fst = keys := by
    rw [map_map]
    exact map_id keys
  simp only [View.receive, ofRemoved, hkeys]
  rfl

variable {now : ℕ} {map : EphemeralMap}

theorem IsDue.visible (h : IsDue now map.entries key) : (visible map key).isSome = true := by
  obtain ⟨value, hlookup, -, htombstone⟩ := h
  simp [StickySubscribers.visible, hlookup, htombstone]

theorem Synced.expire (h : Synced world) : Synced (world.act (.expire elapsed)) := by
  refine ⟨h.wellFormed.evictExpired, ?_⟩
  show view (world.subscriber.receive (.ofRemoved .expired _)) =
    ⟨visible (world.events.map.evictExpired (world.now + elapsed)).2, []⟩
  have hevicted : Evicted (world.now + elapsed) _ _ _ := evicted h.wellFormed.toNoded
  rw [view_receive, receive_ofRemoved, h.synced, visible_evictExpired h.wellFormed]
  apply View.foldl_drop hevicted.nodup
  intro key hmem
  exact ((hevicted.mem key).mp hmem).visible

theorem Synced.clear (h : Synced world)
    (hdue : ∀ key, ¬IsDue (world.now + elapsed) world.events.map.entries key) :
    Synced (world.act (.clear elapsed)) := by
  refine ⟨wellFormed_new, ?_⟩
  show view (world.subscriber.receive (.ofRemoved .roomLeft
    (world.events.map.clear (world.now + elapsed)).1)) = ⟨visible .new, []⟩
  have hmem : ∀ key, key ∈ (world.events.map.clear (world.now + elapsed)).1 ↔
      LiveAt (world.now + elapsed) world.events.map key := by
    intro key
    simp only [EphemeralMap.clear, mem_map, mem_filter, LiveAt]
    constructor
    · rintro ⟨⟨key, value⟩, ⟨hentry, hlive⟩, rfl⟩
      exact ⟨value, mem_lookup_iff.mpr hentry, hlive⟩
    · rintro ⟨value, hlookup, hlive⟩
      exact ⟨⟨key, value⟩, ⟨mem_lookup_iff.mp hlookup, hlive⟩, rfl⟩
  have hnodup : (world.events.map.clear (world.now + elapsed)).1.Nodup :=
    (filter_sublist.map Sigma.fst).nodup world.events.map.entries.nodupKeys
  rw [view_receive, receive_ofRemoved, h.synced]
  rw [View.foldl_drop hnodup fun key hkey => ((hmem key).mp hkey).visible]
  simp only [View.mk.injEq, and_true]
  funext key
  by_cases hkey : key ∈ (world.events.map.clear (world.now + elapsed)).1
  · rw [if_pos hkey]
    rfl
  · rw [if_neg hkey, visible_eq_none (mt (hmem key).mpr hkey) (hdue key)]
    rfl

theorem synced_act (world : World) (action : Action) (next : World) (h : Synced world)
    (hstep : CarefulStep world action next) : Synced next := by
  obtain ⟨hcareful, rfl⟩ := hstep
  cases action with
  | ingest elapsed candidates => exact h.ingest hcareful
  | park parked =>
    obtain ⟨pending, hpark⟩ : ∃ pending,
        world.events.park parked = { world.events with pending := pending } := ⟨_, rfl⟩
    rw [World.act, hpark]
    exact ⟨h.wellFormed, h.synced⟩
  | takePending sessionIds =>
    cases sessionIds with
    | none => exact ⟨h.wellFormed, h.synced⟩
    | some sessionIds => exact ⟨h.wellFormed, h.synced⟩
  | expire elapsed => exact h.expire
  | clear elapsed => exact h.clear hcareful

/-- Right after an expiry pass, all that can be seen is live. -/
theorem visible_iff_mem_live (h : WellFormed map) :
    visible (map.evictExpired now).2 key = some event ↔
      event ∈ (map.evictExpired now).2.live now ∧ event.key = key := by
  have hlive : ∀ {key value}, (map.evictExpired now).2.entries.lookup key = some value →
      now < value.expiresAt := by
    intro key value hlookup
    rw [h.lookup_evictExpired, Option.filter_eq_some_iff] at hlookup
    exact of_decide_eq_true hlookup.2
  unfold visible
  simp only [EphemeralMap.live, mem_map, mem_filter]
  rw [Option.bind_eq_some_iff]
  constructor
  · rintro ⟨value, hlookup, hvisible⟩
    cases htombstone : value.isTombstone with
    | true => simp [htombstone] at hvisible
    | false =>
      rw [htombstone] at hvisible
      cases hvisible
      exact ⟨⟨⟨key, value⟩, ⟨mem_lookup_iff.mp hlookup,
        by simp [isLive, htombstone, hlive hlookup]⟩, rfl⟩, rfl⟩
  · rintro ⟨⟨⟨key, value⟩, ⟨hentry, hislive⟩, rfl⟩, rfl⟩
    have htombstone : value.isTombstone = false := by
      simp only [isLive, Bool.and_eq_true, Bool.not_eq_true'] at hislive
      exact hislive.1
    exact ⟨value, mem_lookup_iff.mpr hentry, by simp [htombstone, eventFromEntry]⟩

end Runs

/-- In every careful run a subscriber has, right after an expiry pass, the events that are live
at that time, each under its key; and it was never told of a removal of something that it did
not have. -/
theorem subscriber_has_live_events {actions : List Action} {elapsed : ℕ} {world : World}
    (hrun : Trace CarefulStep .new (actions ++ [.expire elapsed]) world) :
    world.subscriber.strays = [] ∧
    ∀ key event, world.subscriber.seen.lookup key = some event ↔
      event ∈ world.events.map.live world.now ∧ event.key = key := by
  have hnew : Synced .new := ⟨wellFormed_new, rfl⟩
  obtain ⟨before, hbefore, hlast⟩ := hrun.of_append
  have hsynced : Synced before := hbefore.preserves synced_act hnew
  cases hlast with
  | cons hstep htail =>
    cases htail
    obtain ⟨-, rfl⟩ := hstep
    have hexpired : Synced (before.act (.expire elapsed)) := hsynced.expire
    have hview := hexpired.synced
    refine ⟨congrArg View.strays hview, fun key event => ?_⟩
    have hseen := congrFun (congrArg View.seen hview) key
    show (view (before.act (.expire elapsed)).subscriber).seen key = some event ↔ _
    rw [hseen]
    exact visible_iff_mem_live hsynced.wellFormed

def callMember : StickyKey := ⟨"@alice:example.org", "m.rtc.member", "call"⟩

/-- Alice is in a call until 10. -/
def joined : Candidate := ⟨callMember, "$joined", 10, 10, false, "joined"⟩

def joinedEvent : StickyEvent := ⟨callMember, "$joined", "joined", 10⟩

def otherMember (user eventId : String) (expiresAt : ℕ) (isTombstone : Bool) : Candidate :=
  ⟨⟨user, "m.rtc.member", "call"⟩, eventId, 10, expiresAt, isTombstone, "other"⟩

/-- Bob's event expires before the pass, and Carol leaves the call. -/
def callActions : List Action :=
  [.ingest 1 [joined, otherMember "@bob:example.org" "$bob" 4 false,
    otherMember "@carol:example.org" "$carol" 10 false],
   .ingest 1 [otherMember "@carol:example.org" "$end" 10 true]]

theorem subscriber_has_call_member :
    ∃ world, Trace CarefulStep .new (callActions ++ [.expire 3]) world ∧
      world.subscriber.seen.lookup callMember = some joinedEvent ∧
      ∀ event ∈ world.events.map.live 5, event.key.sender = "@alice:example.org" := by
  have hfirst : Careful .new callActions[0] :=
    ⟨by decide, by decide, .inl (by decide)⟩
  have hsecond : Careful (World.new.act callActions[0]) callActions[1] :=
    ⟨pairwise_singleton _ _, by decide, .inl (by decide)⟩
  have hrun : Trace CarefulStep .new (callActions ++ [.expire 3])
      (((World.new.act callActions[0]).act callActions[1]).act (.expire 3)) :=
    .cons ⟨hfirst, rfl⟩ (.cons ⟨hsecond, rfl⟩ (.single ⟨trivial, rfl⟩))
  have hseen := (subscriber_has_live_events hrun).2
  refine ⟨_, hrun, by decide, fun event hlive => ?_⟩
  have hlookup := (hseen event.key event).mpr ⟨hlive, rfl⟩
  have hsender : ∀ key ∈ (((World.new.act callActions[0]).act callActions[1]).act
      (.expire 3)).subscriber.seen.keys, key.sender = "@alice:example.org" := by decide
  exact hsender event.key (lookup_isSome.mp (by simp [hlookup]))

/-- Alice leaves the call after her event has expired and before the expiry pass. -/
def left : Candidate := ⟨callMember, "$left", 100, 100, true, "left"⟩

theorem tombstone_hides_expired_event :
    (([.ingest 1 [joined], .ingest 11 [left], .expire 0] : List Action).foldl
      World.act .new).subscriber.seen.lookup callMember = some joinedEvent ∧
    (([.ingest 1 [joined], .ingest 11 [left], .expire 0] : List Action).foldl
      World.act .new).events.map.live 12 = [] := by
  decide

/-! ### The size of the map -/

/-- What is done to a map, at a time. -/
inductive MapAction where
  | insert (now : ℕ) (candidate : Candidate)
  | evictExpired (now : ℕ)

def actMap (map : EphemeralMap) : MapAction → EphemeralMap
  | .insert now candidate => (map.insert now candidate).2
  | .evictExpired now => (map.evictExpired now).2

/-- How many entries an action replaces. -/
def replaced (map : EphemeralMap) : MapAction → ℕ
  | .insert now candidate =>
    match map.entries.lookup candidate.key with
    | some current =>
      if candidate.expiresAt ≤ now ∨ current.eventId = candidate.eventId ∨ rankLe candidate current
      then 0 else 1
    | none => 0
  | .evictExpired _ => 0

def replacements : EphemeralMap → List MapAction → ℕ
  | _, [] => 0
  | map, action :: actions => replaced map action + replacements (actMap map action) actions

/-- A change of a map that leaves at most `n` nodes behind without their entries. -/
structure Strays (n : ℕ) (map next : EphemeralMap) : Prop where
  entries : map.entries.keys.length ≤ maxEntries → next.entries.keys.length ≤ maxEntries
  heap : next.expiryHeap.length + map.entries.keys.length ≤
    map.expiryHeap.length + next.entries.keys.length + n

section Size

variable {now m n : ℕ} {map next last : EphemeralMap} {candidate : Candidate} {wasLive : Bool}
  {action : MapAction}

theorem Strays.refl : Strays n map map := ⟨id, by omega⟩

theorem Strays.trans (h : Strays m map next) (h' : Strays n next last) :
    Strays (m + n) map last := by
  have hheap := h.heap
  have hheap' := h'.heap
  exact ⟨h'.entries ∘ h.entries, by omega⟩

theorem strays_evict (heap : List ExpiryNode) (entries : KeyedMap StickyKey StickyValue) :
    (evict now heap entries).2.1.length + entries.keys.length ≤
      heap.length + (evict now heap entries).2.2.keys.length := by
  induction heap generalizing entries with
  | nil => exact le_rfl
  | cons node heap ih =>
    unfold evict
    split
    · exact le_rfl
    · split
      · grind
      next value hlookup =>
        split
        · have hmem : node.key ∈ entries.keys := lookup_isSome.mp (by simp [hlookup])
          have herased := ih (entries.erase node.key)
          rw [keys_erase, length_erase_of_mem hmem] at herased
          grind
        · grind

theorem strays_evictExpired : Strays n map (map.evictExpired now).2 :=
  ⟨(keys_evict_sublist map.entries).length_le.trans,
    (strays_evict map.expiryHeap map.entries).trans (le_add_right _ n)⟩

theorem heap_put :
    (map.put candidate wasLive).2.expiryHeap.length = map.expiryHeap.length + 1 :=
  orderedInsert_length ..

theorem strays_put (h : candidate.key ∈ map.entries ∧ n = 1 ∨
      candidate.key ∉ map.entries ∧ ¬maxEntries ≤ map.entries.keys.length) :
    Strays n map (map.put candidate wasLive).2 := by
  have hkeys : (map.put candidate wasLive).2.entries.keys.length =
      map.entries.keys.length + if candidate.key ∈ map.entries then 0 else 1 := by
    rw [entries_put, keys_insert, length_cons, length_erase]
    grind [length_pos_of_mem, AList.mem_keys]
  constructor <;> grind [heap_put]

theorem insert_newer {current : StickyValue} (hnow : now < candidate.expiresAt)
    (hlookup : map.entries.lookup candidate.key = some current)
    (hevent : current.eventId ≠ candidate.eventId) (hrank : ¬rankLe candidate current) :
    map.insert now candidate = map.put candidate (current.isLive now) := by
  simp [EphemeralMap.insert, hnow, hlookup, hevent, hrank]

theorem strays_actMap : Strays (replaced map action) map (actMap map action) := by
  cases action with
  | evictExpired now => exact strays_evictExpired
  | insert now candidate =>
    cases hlookup : map.entries.lookup candidate.key with
    | some current =>
      have hkey : candidate.key ∈ map.entries := lookup_isSome.mp (by simp [hlookup])
      by_cases hnewer : now < candidate.expiresAt ∧ current.eventId ≠ candidate.eventId ∧
          ¬rankLe candidate current
      · have hput := insert_newer hnewer.1 hlookup hnewer.2.1 hnewer.2.2
        have hone : replaced map (.insert now candidate) = 1 := by
          simp [replaced, hlookup, hnewer]
        rw [hone, actMap, hput]
        exact @strays_put 1 map candidate (current.isLive now) (.inl ⟨hkey, rfl⟩)
      · have hkept : actMap map (.insert now candidate) = map := by
          grind [actMap, EphemeralMap.insert]
        rw [hkept]
        exact .refl
    | none =>
      have hkey : candidate.key ∉ map.entries := lookup_eq_none.mp hlookup
      have hevicted : candidate.key ∉ (map.evictExpired now).2.entries := fun hmem =>
        hkey ((keys_evict_sublist map.entries).subset hmem)
      rw [actMap, EphemeralMap.insert, hlookup]
      split
      · exact .refl
      dsimp only
      split
      · split
        · exact strays_evictExpired
        next hroom =>
          exact .trans (n := 0) strays_evictExpired (strays_put (.inr ⟨hevicted, hroom⟩))
      next hroom => exact strays_put (.inr ⟨hkey, hroom⟩)

theorem strays_run (map : EphemeralMap) (actions : List MapAction) :
    Strays (replacements map actions) map (actions.foldl actMap map) := by
  induction actions generalizing map with
  | nil => exact .refl
  | cons action actions ih => exact strays_actMap.trans (ih _)

/-- The nodes of a map are no more than its entries and the entries that were replaced. -/
theorem map_stays_small {actions : List MapAction} {k : ℕ}
    (h : replacements .new actions ≤ k * maxEntries) :
    (actions.foldl actMap .new).entries.keys.length ≤ maxEntries ∧
      (actions.foldl actMap .new).expiryHeap.length ≤ (k + 1) * maxEntries := by
  have hrun := strays_run .new actions
  have hentries := hrun.entries (by decide)
  have hheap : (actions.foldl actMap .new).expiryHeap.length + 0 ≤ 0 + _ + _ := hrun.heap
  rw [succ_mul]
  exact ⟨hentries, by omega⟩

/-- Alice stays in the call, with ever newer events. -/
def renewal (i : ℕ) : Candidate :=
  ⟨callMember, if i % 2 = 0 then "$even" else "$odd", i, 1, false, "joined"⟩

def renewals (n : ℕ) : EphemeralMap :=
  ((range n).map fun i => .insert 0 (renewal i)).foldl actMap .new

theorem call_map_stays_small : (renewals 3).expiryHeap.length ≤ 2 * maxEntries :=
  (map_stays_small (k := 1) (by decide)).2

theorem renewals_succ (n : ℕ) : (renewals (n + 1)).expiryHeap.length = n + 1 ∧
    ∃ seq, (renewals (n + 1)).entries.lookup callMember =
      some (candidateValue (renewal n) seq) := by
  induction n with
  | zero => exact ⟨rfl, 0, rfl⟩
  | succ n ih =>
    obtain ⟨hlength, seq, hlookup⟩ := ih
    have hstep : renewals (n + 2) = ((renewals (n + 1)).insert 0 (renewal (n + 1))).2 := by
      simp [renewals, range_succ, actMap]
    have hevent : (renewal n).eventId ≠ (renewal (n + 1)).eventId := by
      unfold renewal
      grind
    rw [hstep, insert_newer one_pos hlookup hevent (by grind [rankLe, renewal, candidateValue])]
    exact ⟨heap_put.trans (congrArg succ hlength), _, lookup_put_self⟩

theorem nodes_grow_without_bound :
    (renewals 2).entries.keys.length = 1 ∧
      ∀ k, ∃ n, k * maxEntries < (renewals n).expiryHeap.length :=
  ⟨rfl, fun k => ⟨k * maxEntries + 1, (lt_succ_self _).trans_eq (renewals_succ _).1.symm⟩⟩

end Size

end MatrixSdk.StickySubscribers

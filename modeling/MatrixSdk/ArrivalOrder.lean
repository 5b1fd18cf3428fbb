import Mathlib.Data.List.Infix
import MatrixSdk.Arrivals

/-!
When it does not matter at which point of a sequence of related events the event itself arrives.
-/
namespace MatrixSdk.ArrivalOrder

open EventItems TimelineAggregations Additions WornEdits Arrivals Aggregations EventTimelineItem
open List

variable {rules : RoomVersionRules} {a : Aggregation} {item e : EventTimelineItem}
  {edit : PendingEdit} {l p q seen : List Aggregation}

section Shown

/-- Whether an aggregation cannot be applied to an item. -/
def fails (rules : RoomVersionRules) (item : EventTimelineItem) (a : Aggregation) : Bool :=
  match (a.apply rules item).1 with
  | .error _ => true
  | _ => false

/-- Whether the aggregations can be applied, one after the other. -/
def applies (rules : RoomVersionRules) (item : EventTimelineItem) : List Aggregation → Bool
  | [] => true
  | a :: l => !fails rules item a && applies rules (a.apply rules item).2 l

/-- The latest edit among the aggregations, if it fits what they make of the item. -/
def shownEdit (rules : RoomVersionRules) (item : EventTimelineItem) (l : List Aggregation) :
    Option PendingEdit :=
  (latestEdit item l).filter fun edit => fits rules edit (settle rules item l).content

theorem apply_of_fails (ha : IsAddition a) (h : fails rules item a = true) :
    (a.apply rules item).2 = item := by
  rcases (ha.applied rules item).eq_or_updated with heq | hupdated
  · exact heq
  · simp [fails, hupdated] at h

theorem applyEach_cons_of_fails (ha : IsAddition a) (h : fails rules item a = true)
    (hasEdits : Bool) :
    applyEach rules item hasEdits (a :: l) = (item, none) := by
  have hitem := apply_of_fails ha h
  unfold fails at h
  rw [applyEach]
  cases hresult : a.apply rules item with
  | mk result event =>
    rw [hresult] at h hitem
    cases result with
    | error err => rw [← hitem]
    | _ => cases h

theorem applyEach_cons (ha : IsAddition a) (h : fails rules item a = false) (hasEdits : Bool) :
    applyEach rules item hasEdits (a :: l) =
      applyEach rules (a.apply rules item).2 (hasEdits || a.kind.isEdit) l := by
  have hedit := (ha.applied rules item).isEdit_iff
  unfold fails at h
  rw [applyEach]
  cases hresult : a.apply rules item with
  | mk result event =>
    rw [hresult] at hedit h
    cases result with
    | edit => simp [hedit.mp rfl]
    | error err => cases h
    | updatedItem | leftItemIntact => simp [Bool.eq_false_iff.mpr (mt hedit.mpr (by simp))]

theorem applies_append :
    applies rules item (p ++ q) =
      (applies rules item p && applies rules (settle rules item p) q) := by
  induction p generalizing item with
  | nil => simp [applies]
  | cons a p ih => simp [applies, ih, Bool.and_assoc]

/-- Where an aggregation fails there is a first one that does. -/
theorem exists_first_failure (h : applies rules item l = false) :
    ∃ p a q, l = p ++ a :: q ∧ applies rules item p = true ∧
      fails rules (settle rules item p) a = true := by
  induction l generalizing item with
  | nil => cases h
  | cons a l ih =>
    by_cases ha : fails rules item a = true
    · exact ⟨[], a, l, rfl, rfl, ha⟩
    · rw [Bool.not_eq_true] at ha
      simp [applies, ha] at h
      obtain ⟨p, b, q, rfl, hp, hb⟩ := ih h
      exact ⟨a :: p, b, q, rfl, by simp [applies, ha, hp], hb⟩

variable {e' : EventTimelineItem}

theorem originalJson_of_kind (h : e'.kind = e.kind) : e'.originalJson = e.originalJson := by
  unfold originalJson
  rw [h]

theorem encryptionInfo_of_kind (h : e'.kind = e.kind) : e'.encryptionInfo = e.encryptionInfo := by
  unfold encryptionInfo
  rw [h]

theorem latestEdit_append_of_no_edit (h : q.any (·.kind.isEdit) = false) :
    latestEdit item (p ++ q) = latestEdit item p := by
  have hnil : q.filterMap (candidate item) = [] := by
    rw [filterMap_eq_nil_iff]
    intro a ha
    apply candidate_of_not_isEdit
    rw [any_eq_false] at h
    exact Bool.eq_false_iff.mpr (h a ha)
  unfold latestEdit
  rw [filterMap_append, hnil, append_nil]

section

variable (hadd : ∀ a ∈ l, IsAddition a)
include hadd

theorem applyEach_of_applies (h : applies rules item l = true) (hasEdits : Bool) :
    applyEach rules item hasEdits l =
      (settle rules item l, some (hasEdits || l.any (·.kind.isEdit))) := by
  induction l generalizing item hasEdits with
  | nil => simp [applyEach]
  | cons a l ih =>
    simp only [applies, Bool.and_eq_true, Bool.not_eq_true'] at h
    rw [applyEach_cons (hadd a (by simp)) h.1, ih (fun b hb => hadd b (by simp [hb])) h.2]
    simp [Bool.or_assoc]

theorem settle_dress (worn : Option PendingEdit) :
    settle rules (dress rules worn item) l = dress rules worn (settle rules item l) := by
  induction l generalizing item with
  | nil => rfl
  | cons a l ih =>
    have hdress : a.apply rules (dress rules worn item) =
        ((a.apply rules item).1, dress rules worn (a.apply rules item).2) := by
      cases worn with
      | none => rfl
      | some edit => exact commutes (hadd a (by simp))
    rw [settle_cons, settle_cons, hdress, ih fun b hb => hadd b (by simp [hb])]

/-- Edits that are resolved for what the additions made of an item. -/
theorem resolveEdits_settle :
    (resolveEdits rules l (settle rules item l)).getD (settle rules item l) =
      settle rules (dress rules (shownEdit rules item l) item) l := by
  rw [resolveEdits_eq hadd, latestEdit_congr (originalJson_of_kind (settle_kind hadd))
    (encryptionInfo_of_kind (settle_kind hadd)), settle_dress hadd]
  unfold shownEdit
  cases (latestEdit item l).filter fun edit => fits rules edit (settle rules item l).content with
  | none => rfl
  | some edit => rfl

/-- Aggregations that can be applied all at once leave the item with the latest edit over it. -/
theorem allAtOnce_of_applies (h : applies rules item l = true) :
    allAtOnce rules item l = settle rules (dress rules (shownEdit rules item l) item) l := by
  unfold allAtOnce
  rw [applyEach_of_applies hadd h, Bool.false_or]
  cases hedits : l.any (·.kind.isEdit) with
  | true => exact resolveEdits_settle hadd
  | false =>
    have hnone : latestEdit item ([] ++ l) = latestEdit item [] :=
      latestEdit_append_of_no_edit hedits
    rw [nil_append] at hnone
    unfold shownEdit
    rw [hnone]
    rfl

end

section

variable (hadd : ∀ b ∈ p ++ a :: q, IsAddition b) (h : applies rules item p = true)
  (ha : fails rules (settle rules item p) a = true)
include hadd h ha

theorem applyEach_of_fails (hasEdits : Bool) :
    applyEach rules item hasEdits (p ++ a :: q) = (settle rules item p, none) := by
  induction p generalizing item hasEdits with
  | nil => exact applyEach_cons_of_fails (hadd a (by simp)) ha hasEdits
  | cons b p ih =>
    simp only [applies, Bool.and_eq_true, Bool.not_eq_true'] at h
    rw [cons_append, applyEach_cons (hadd b (by simp)) h.1]
    apply ih _ h.2 ha
    intro c hc
    exact hadd c (mem_cons_of_mem b hc)

theorem allAtOnce_of_fails : allAtOnce rules item (p ++ a :: q) = settle rules item p := by
  unfold allAtOnce
  rw [applyEach_of_fails hadd h ha]

end

end Shown

section Bases

/-- The item without the additions, after one more aggregation was seen: only an edit that can be
shown changes it. -/
def nextBase (rules : RoomVersionRules) (seen : List Aggregation) (base : EventTimelineItem)
    (a : Aggregation) : EventTimelineItem :=
  if a.kind.isEdit then dress rules (shownEdit rules base seen) base else base

def lastBase (rules : RoomVersionRules) (seen : List Aggregation) (base : EventTimelineItem) :
    List Aggregation → EventTimelineItem
  | [] => base
  | a :: rest => lastBase rules (seen ++ [a]) (nextBase rules (seen ++ [a]) base a) rest

theorem applyNext_settle (hadd : ∀ b ∈ seen ++ [a], IsAddition b) :
    applyNext rules (seen ++ [a]) (settle rules e seen) a =
      settle rules (nextBase rules (seen ++ [a]) e a) (seen ++ [a]) := by
  have ha : IsAddition a := hadd a (by simp)
  have happlied := ha.applied rules (settle rules e seen)
  unfold applyNext nextBase
  cases hedit : a.kind.isEdit with
  | true =>
    have hsame : settle rules e (seen ++ [a]) = settle rules e seen := by
      rw [settle_append, settle_cons, apply_of_isEdit hedit, settle_nil]
    rw [apply_of_isEdit hedit, if_pos rfl, ← resolveEdits_settle hadd, hsame]
  | false =>
    rw [if_neg (by simp), settle_append, settle_cons, settle_nil]
    have hnot := mt happlied.isEdit_iff.mp (by simp [hedit])
    cases hresult : a.apply rules (settle rules e seen) with
    | mk result event =>
      rw [hresult] at happlied hnot
      cases result with
      | edit => exact absurd rfl hnot
      | updatedItem => rfl
      | leftItemIntact | error => rcases happlied.eq_or_updated with heq | heq <;> simp_all

/-- Aggregations that are applied one by one: what was added stands on the last base. -/
theorem oneByOne_eq (hadd : ∀ b ∈ seen ++ l, IsAddition b) :
    oneByOne rules seen (settle rules e seen) l =
      settle rules (lastBase rules seen e l) (seen ++ l) := by
  induction l generalizing seen e with
  | nil => simp [oneByOne, lastBase]
  | cons a l ih =>
    have hadd' : ∀ b ∈ (seen ++ [a]) ++ l, IsAddition b := by simpa using hadd
    have hseen : ∀ b ∈ seen ++ [a], IsAddition b := fun b hb => hadd' b (by simp at hb ⊢; tauto)
    rw [oneByOne, applyNext_settle hseen, ih hadd', lastBase, append_assoc, singleton_append]

/-- What the item with an edit has, and an edit never takes away, stays until the end. -/
theorem lastBase_keeps {P : EventTimelineItem → Prop}
    (hkeeps : ∀ e l edit, IsRemote e → shownEdit rules e l = some edit → P e →
      P (wear rules edit e)) (he : IsRemote e) (h : P e) : P (lastBase rules seen e l) := by
  induction l generalizing seen e with
  | nil => exact h
  | cons a l ih =>
    unfold lastBase nextBase
    split
    · cases hshown : shownEdit rules e (seen ++ [a]) with
      | none => exact ih he h
      | some edit => exact ih (he.wear rules edit) (hkeeps e _ edit he hshown h)
    · exact ih he h

section

variable (he : IsRemote e)
include he

theorem latestEditJson_wear_ne_none (h : shownEdit rules e l = some edit) :
    (wear rules edit e).latestEditJson ≠ none := by
  obtain ⟨remote, hkind⟩ := he
  unfold wear EventTimelineItem.latestEditJson
  rw [hkind]
  exact editJson_of_latestEdit (Option.filter_eq_some_iff.mp h).1

/-- An item that shows no edit in the end has had none to show. -/
theorem shownEdit_of_lastBase (hadd : ∀ a ∈ l, IsAddition a)
    (hseen : shownEdit rules e seen = none) (h : (lastBase rules seen e l).latestEditJson = none) :
    ∀ r, r <+: l → shownEdit rules e (seen ++ r) = none := by
  induction l generalizing seen with
  | nil =>
    intro r hr
    rw [prefix_nil.mp hr, append_nil]
    exact hseen
  | cons a l ih =>
    have hnext : shownEdit rules e (seen ++ [a]) = none ∧
        (lastBase rules (seen ++ [a]) e l).latestEditJson = none := by
      unfold lastBase nextBase at h
      cases hedit : a.kind.isEdit with
      | false =>
        rw [hedit, if_neg (by simp)] at h
        refine ⟨?_, h⟩
        unfold shownEdit at hseen ⊢
        rw [Option.filter_eq_none_iff] at hseen ⊢
        intro edit hlatest hfits
        rw [latestEdit, filterMap_append, filterMap_cons_none (candidate_of_not_isEdit hedit),
          filterMap_nil, append_nil] at hlatest
        apply hseen edit hlatest
        rw [settle_append, settle_cons, settle_nil] at hfits
        exact Applied.fits ((hadd a (by simp)).applied rules _) hfits
      | true =>
        rw [hedit, if_pos rfl] at h
        cases hshown : shownEdit rules e (seen ++ [a]) with
        | none =>
          rw [hshown] at h
          exact ⟨rfl, h⟩
        | some edit =>
          rw [hshown] at h
          exact absurd h (lastBase_keeps (P := fun e => e.latestEditJson ≠ none)
            (fun _ _ _ he hshown _ => latestEditJson_wear_ne_none he hshown)
            (he.wear rules edit) (latestEditJson_wear_ne_none he hshown))
    intro r hr
    rcases prefix_cons_iff.mp hr with rfl | ⟨r', rfl, hr'⟩
    · rw [append_nil]
      exact hseen
    · have := ih (fun b hb => hadd b (by simp [hb])) hnext.1 hnext.2 r' hr'
      rwa [append_assoc, singleton_append] at this

end

end Bases

section Cuts

/-- What is shown when the first `cut` aggregations arrive before the item. -/
def shownAt (rules : RoomVersionRules) (item : EventTimelineItem) (l : List Aggregation)
    (cut : ℕ) : EventTimelineItem :=
  oneByOne rules (l.take cut) (allAtOnce rules item (l.take cut)) (l.drop cut)

/-- After the first aggregation that fails no other one changes the item. Where an edit can be
shown at some point none of the aggregations fails, the latest edit of all can be shown, and an
edit that is encrypted is not followed by a latest one that is not. -/
structure Steady (rules : RoomVersionRules) (item : EventTimelineItem) (l : List Aggregation) :
    Prop where
  failures : ∀ p a q, l = p ++ a :: q → applies rules item p = true →
    fails rules (settle rules item p) a = true →
      ∀ b ∈ q, (b.apply rules (settle rules item p)).2 = settle rules item p
  edits : (∀ p, p <+: l → shownEdit rules item p = none) ∨
    applies rules item l = true ∧ ∃ edit, shownEdit rules item l = some edit ∧
      (item.encryptionInfo = none → edit.encryptionInfo = none → ∀ p, p <+: l →
        ∀ shown, shownEdit rules item p = some shown → shown.encryptionInfo = none)

theorem lastBase_of_shownEdit_none (h : ∀ r, r <+: l → shownEdit rules e (seen ++ r) = none) :
    lastBase rules seen e l = e := by
  induction l generalizing seen with
  | nil => rfl
  | cons a l ih =>
    have hnext : nextBase rules (seen ++ [a]) e a = e := by
      unfold nextBase
      rw [h [a] (by simp)]
      simp
    unfold lastBase
    rw [hnext]
    apply ih
    intro r hr
    rw [append_assoc]
    exact h ([a] ++ r) (by simpa using hr)

theorem settle_of_leave_alone (h : ∀ b ∈ l, (b.apply rules e).2 = e) : settle rules e l = e := by
  apply settle_induction (P := (· = e)) _ rfl
  intro b hb e' he'
  rw [he']
  exact h b hb

/-- Without an edit to show, the item is what the additions make of it. -/
theorem shownAt_of_shownEdit_none (hadd : ∀ b ∈ l, IsAddition b)
    (hsteady : Steady rules item l) (h : ∀ p, p <+: l → shownEdit rules item p = none) (cut : ℕ) :
    shownAt rules item l cut = settle rules item l := by
  have htake : ∀ b ∈ l.take cut, IsAddition b := fun b hb => hadd b (mem_of_mem_take hb)
  have hbase : lastBase rules (l.take cut) item (l.drop cut) = item := by
    apply lastBase_of_shownEdit_none
    intro r hr
    apply h
    conv_rhs => rw [← take_append_drop cut l]
    exact (prefix_append_right_inj _).mpr hr
  have hall : allAtOnce rules item (l.take cut) = settle rules item (l.take cut) := by
    cases happ : applies rules item (l.take cut) with
    | true => rw [allAtOnce_of_applies htake happ, h _ (List.take_prefix _ _), dress_none]
    | false =>
      obtain ⟨p, a, q, hl, hp, ha⟩ := exists_first_failure happ
      have hsplit : l = p ++ a :: (q ++ l.drop cut) := by
        conv_lhs => rw [← take_append_drop cut l]
        rw [hl, append_assoc, cons_append]
      have hq := settle_of_leave_alone fun b hb =>
        hsteady.failures p a (q ++ l.drop cut) hsplit hp ha b (mem_append_left _ hb)
      rw [hl] at htake ⊢
      rw [allAtOnce_of_fails htake hp ha, settle_append, settle_cons,
        apply_of_fails (htake a (by simp)) ha, hq]
  unfold shownAt
  rw [hall, oneByOne_eq (by rwa [take_append_drop]), hbase, take_append_drop]

end Cuts

section LatestEdit

variable {worn : Option PendingEdit} {last : PendingEdit}

theorem shownEdit_dress (hadd : ∀ b ∈ l, IsAddition b) :
    shownEdit rules (dress rules worn item) l =
      (latestEdit (dress rules worn item) l).filter
        fun edit => fits rules edit (settle rules item l).content := by
  unfold shownEdit
  rw [settle_dress hadd]
  cases worn with
  | none => rfl
  | some edit => simp

theorem originalJson_dress : (dress rules worn item).originalJson = item.originalJson := by
  cases worn with
  | none => rfl
  | some edit => exact originalJson_wear

theorem encryptionInfo_dress (hitem : IsRemote item) :
    (dress rules worn item).encryptionInfo = none ↔
      item.encryptionInfo = none ∧ ∀ edit, worn = some edit → edit.encryptionInfo = none := by
  cases worn with
  | none => simp
  | some edit =>
    rw [dress_some, encryptionInfo_wear hitem]
    simp [and_comm]

/-- Whether the item may count as encrypted, given the edit that is shown in the end. -/
def Fair (item : EventTimelineItem) (last : PendingEdit) (worn : Option PendingEdit) : Prop :=
  ∀ edit, worn = some edit → edit.encryptionInfo ≠ none →
    item.encryptionInfo ≠ none ∨ last.encryptionInfo ≠ none

section

variable (hitem : IsRemote item)
include hitem

/-- An edit that is shown over a fairly dressed item takes the place of the one before. -/
theorem wear_fair (hadd : ∀ b ∈ p, IsAddition b) (hfair : Fair item last worn)
    (hfirst : ∀ shown, shownEdit rules item p = some shown → Fair item last (some shown))
    (h : shownEdit rules (dress rules worn item) p = some edit) :
    wear rules edit (dress rules worn item) = wear rules edit item ∧
      Fair item last (some edit) := by
  obtain ⟨hlatest, hsettled⟩ := Option.filter_eq_some_iff.mp h
  have hfits := fits_of_settle hadd hsettled
  obtain ⟨b, -, key, hcandidate⟩ := mem_of_latestEdit hlatest
  have hvalid : edit.encryptionInfo ≠ none ∨ (dress rules worn item).encryptionInfo = none :=
    candidate_encrypted hcandidate
  have hfits' : fits rules edit item.content = true := by
    cases worn with
    | none => exact hfits
    | some shown => simpa using hfits
  refine ⟨?_, ?_⟩
  · -- the edit that was shown before does not matter any more
    cases hworn : worn with
    | none => rfl
    | some shown =>
      apply wear_wear hfits'
      intro hnone
      rcases hvalid with h | h
      · exact absurd hnone h
      · exact ((encryptionInfo_dress hitem).mp h).2 shown hworn
  by_cases hnone : (dress rules worn item).encryptionInfo = none
  · -- nothing encrypted was shown so far: the edit is also the one of the bare item
    apply hfirst
    have hsame : latestEdit (dress rules worn item) p = latestEdit item p :=
      latestEdit_congr originalJson_dress
        (by rw [hnone, ((encryptionInfo_dress hitem).mp hnone).1])
    rw [shownEdit_dress hadd, hsame] at h
    exact h
  · intro edit' hedit' _
    by_contra hboth
    push Not at hboth
    apply hnone
    rw [encryptionInfo_dress hitem]
    refine ⟨hboth.1, fun shown hshown => ?_⟩
    by_contra hshown'
    rcases hfair shown hshown hshown' with hcase | hcase
    · exact hcase hboth.1
    · exact hcase hboth.2

/-- Once all the edits are there the latest one is shown. -/
theorem shownEdit_last (hadd : ∀ b ∈ p ++ q, IsAddition b) (hids : ((p ++ q).map (·.ownId)).Nodup)
    (hq : q.any (·.kind.isEdit) = false) (hlast : shownEdit rules item (p ++ q) = some last)
    (hfair : Fair item last worn) : shownEdit rules (dress rules worn item) p = some last := by
  have hp : ∀ b ∈ p, IsAddition b := fun b hb => hadd b (by simp [hb])
  obtain ⟨hlatest, hfits⟩ := Option.filter_eq_some_iff.mp hlast
  obtain ⟨b, hb, key, hcandidate⟩ := mem_of_latestEdit hlatest
  have hcount : last.encryptionInfo ≠ none ∨ (dress rules worn item).encryptionInfo = none := by
    rcases candidate_encrypted hcandidate with hcase | hcase
    · exact Or.inl hcase
    · by_contra hboth
      push Not at hboth
      apply hboth.2
      rw [encryptionInfo_dress hitem]
      refine ⟨hcase, fun shown hshown => ?_⟩
      by_contra hshown'
      rcases hfair shown hshown hshown' with hcase' | hcase'
      · exact hcase' hcase
      · exact hcase' hboth.1
  rw [shownEdit_dress hp, Option.filter_eq_some_iff]
  constructor
  · have hids' : (p.map (·.ownId)).Nodup := by
      rw [map_append] at hids
      exact hids.sublist (sublist_append_left _ _)
    rw [latestEdit_append_of_no_edit hq] at hlatest
    apply latestEdit_of_encryption hids' hlatest originalJson_dress _ hcount
    intro hnone
    exact ((encryptionInfo_dress hitem).mp hnone).1
  · rw [settle_append] at hfits
    exact fits_of_settle (fun b hb => hadd b (by simp [hb])) hfits

/-- Whatever is shown in between, the latest edit is the one that is left. -/
theorem lastBase_eq_wear (hadd : ∀ b ∈ seen ++ q, IsAddition b)
    (hids : ((seen ++ q).map (·.ownId)).Nodup)
    (hlast : shownEdit rules item (seen ++ q) = some last)
    (hfirst : ∀ p, p <+: seen ++ q → ∀ shown, shownEdit rules item p = some shown →
      Fair item last (some shown)) (hfair : Fair item last worn)
    (hworn : q.any (·.kind.isEdit) = false → dress rules worn item = wear rules last item) :
    lastBase rules seen (dress rules worn item) q = wear rules last item := by
  induction q generalizing seen worn with
  | nil => exact hworn rfl
  | cons a q ih =>
    have happend : (seen ++ [a]) ++ q = seen ++ a :: q := by simp
    have hseen : ∀ b ∈ seen ++ [a], IsAddition b := by
      intro b hb
      apply hadd b
      rw [← happend]
      exact mem_append_left q hb
    rw [← happend] at hadd hids hlast hfirst
    unfold lastBase nextBase
    cases hedit : a.kind.isEdit with
    | false =>
      apply ih hadd hids hlast hfirst hfair
      intro hq
      apply hworn
      simp [hedit, hq]
    | true =>
      have hshows : q.any (·.kind.isEdit) = false →
          shownEdit rules (dress rules worn item) (seen ++ [a]) = some last := fun hq =>
        shownEdit_last hitem hadd hids hq hlast hfair
      cases hshown : shownEdit rules (dress rules worn item) (seen ++ [a]) with
      | none =>
        apply ih hadd hids hlast hfirst hfair
        intro hq
        rw [hshows hq] at hshown
        cases hshown
      | some edit =>
        obtain ⟨hwear, hfair'⟩ := wear_fair hitem hseen hfair
          (hfirst (seen ++ [a]) (prefix_append _ _)) hshown
        rw [dress_some, hwear]
        apply ih hadd hids hlast hfirst hfair'
        intro hq
        rw [hshows hq] at hshown
        cases hshown
        rfl

theorem shownAt_of_shownEdit_some (hadd : ∀ b ∈ l, IsAddition b) (hids : (l.map (·.ownId)).Nodup)
    (happ : applies rules item l = true) (hlast : shownEdit rules item l = some last)
    (hfirst : ∀ p, p <+: l → ∀ shown, shownEdit rules item p = some shown →
      Fair item last (some shown)) (cut : ℕ) :
    shownAt rules item l cut = settle rules (wear rules last item) l := by
  have htake : ∀ b ∈ l.take cut, IsAddition b := fun b hb => hadd b (mem_of_mem_take hb)
  have happ' : applies rules item (l.take cut) = true := by
    rw [← take_append_drop cut l, applies_append, Bool.and_eq_true] at happ
    exact happ.1
  have hfair : Fair item last (shownEdit rules item (l.take cut)) := by
    cases hshown : shownEdit rules item (l.take cut) with
    | none => simp [Fair]
    | some shown => exact hfirst _ (List.take_prefix _ _) shown hshown
  unfold shownAt
  rw [allAtOnce_of_applies htake happ', oneByOne_eq (by rwa [take_append_drop]),
    lastBase_eq_wear hitem (by rwa [take_append_drop]) (by rwa [take_append_drop])
      (by rwa [take_append_drop]) (by rwa [take_append_drop]) hfair, take_append_drop]
  intro hq
  have hshown : shownEdit rules (dress rules none item) (l.take cut) = some last := by
    apply shownEdit_last hitem (q := l.drop cut) _ _ hq _ (by simp [Fair])
    · rwa [take_append_drop]
    · rwa [take_append_drop]
    · rwa [take_append_drop]
  rw [dress_none] at hshown
  rw [hshown, dress_some]

end

/-- The item looks the same wherever the sequence is cut. -/
theorem Steady.shownAt_eq (h : Steady rules item l) (hitem : IsRemote item)
    (hadd : ∀ b ∈ l, IsAddition b) (hids : (l.map (·.ownId)).Nodup) (cut : ℕ) :
    shownAt rules item l cut = shownAt rules item l 0 := by
  rcases h.edits with hnone | ⟨happ, last, hlast, hclear⟩
  · rw [shownAt_of_shownEdit_none hadd h hnone, shownAt_of_shownEdit_none hadd h hnone]
  · have hfirst : ∀ p, p <+: l → ∀ shown, shownEdit rules item p = some shown →
        Fair item last (some shown) := by
      intro p hp shown hshown edit hedit hencrypted
      cases hedit
      by_contra hboth
      push Not at hboth
      exact hencrypted (hclear hboth.1 hboth.2 p hp shown hshown)
    rw [shownAt_of_shownEdit_some hitem hadd hids happ hlast hfirst,
      shownAt_of_shownEdit_some hitem hadd hids happ hlast hfirst]

end LatestEdit

section Necessity

theorem shownAt_length : shownAt rules item l l.length = allAtOnce rules item l := by
  unfold shownAt
  rw [take_length, drop_length]
  rfl

variable (hitem : IsRemote item) (hplain : item.latestEditJson = none)
  (hadd : ∀ b ∈ l, IsAddition b) (hsame : ∀ cut, shownAt rules item l cut = shownAt rules item l 0)

include hadd

theorem shownAt_zero : shownAt rules item l 0 = settle rules (lastBase rules [] item l) l := by
  have hrun : oneByOne rules [] (settle rules item []) l =
      settle rules (lastBase rules [] item l) ([] ++ l) := oneByOne_eq hadd
  exact hrun

theorem latestEditJson_settle : (settle rules e l).latestEditJson = e.latestEditJson := by
  unfold latestEditJson
  rw [settle_kind hadd]

theorem encryptionInfo_settle : (settle rules e l).encryptionInfo = e.encryptionInfo :=
  encryptionInfo_of_kind (settle_kind hadd)

include hitem

/-- The item shows an edit in the end if one could be shown at some point. -/
theorem shownEdit_of_shownAt_zero (h : (shownAt rules item l 0).latestEditJson = none) :
    (∀ p, p <+: l → shownEdit rules item p = none) ∧ lastBase rules [] item l = item := by
  rw [shownAt_zero hadd, latestEditJson_settle hadd] at h
  have hnone : ∀ p, p <+: l → shownEdit rules item ([] ++ p) = none :=
    shownEdit_of_lastBase hitem hadd rfl h
  exact ⟨hnone, lastBase_of_shownEdit_none hnone⟩

include hplain hsame

theorem edits_of_same (happ : applies rules item l = true)
    (hsome : ∃ p, p <+: l ∧ shownEdit rules item p ≠ none) :
    ∃ edit, shownEdit rules item l = some edit ∧
      (item.encryptionInfo = none → edit.encryptionInfo = none → ∀ p, p <+: l →
        ∀ shown, shownEdit rules item p = some shown → shown.encryptionInfo = none) := by
  have hbatch := hsame l.length
  rw [shownAt_length, allAtOnce_of_applies hadd happ] at hbatch
  cases hlast : shownEdit rules item l with
  | none =>
    obtain ⟨p, hp, hne⟩ := hsome
    have hjson : (shownAt rules item l 0).latestEditJson = none := by
      rw [← hbatch, hlast, dress_none, latestEditJson_settle hadd, hplain]
    exact absurd ((shownEdit_of_shownAt_zero hitem hadd hjson).1 p hp) hne
  | some last =>
    refine ⟨last, rfl, ?_⟩
    intro hclear hclear' p hp shown hshown
    by_contra hencrypted
    -- cut where the encrypted edit is the latest one: from there on the item counts as encrypted
    obtain ⟨r, rfl⟩ := hp
    have hfirst : ∀ b ∈ p, IsAddition b := fun b hb => hadd b (by simp [hb])
    rw [applies_append, Bool.and_eq_true] at happ
    have hcut := hsame p.length
    rw [← hbatch, hlast] at hcut
    unfold shownAt at hcut
    rw [take_left, drop_left, allAtOnce_of_applies hfirst happ.1, hshown, dress_some,
      oneByOne_eq hadd] at hcut
    have hkept : (lastBase rules p (wear rules shown item) r).encryptionInfo ≠ none := by
      apply lastBase_keeps (P := fun e => e.encryptionInfo ≠ none) _ (hitem.wear rules shown)
      · rw [encryptionInfo_wear hitem]
        cases henc : shown.encryptionInfo with
        | none => exact absurd henc hencrypted
        | some info => simp
      · intro e l edit he _ h
        rw [encryptionInfo_wear he]
        cases edit.encryptionInfo with
        | none => exact h
        | some info => simp
    apply hkept
    rw [← encryptionInfo_settle hadd, hcut, encryptionInfo_settle hadd, dress_some,
      encryptionInfo_wear hitem, hclear, hclear']
    rfl

section

variable (hfresh : item.reactions = []) (hids : (l.map (·.ownId)).Nodup)
include hfresh hids

theorem failures_of_same (hl : l = p ++ a :: q) (hp : applies rules item p = true)
    (ha : fails rules (settle rules item p) a = true) :
    (∀ p, p <+: l → shownEdit rules item p = none) ∧
      ∀ b ∈ q, (b.apply rules (settle rules item p)).2 = settle rules item p := by
  subst hl
  have hfirst : ∀ b ∈ p, IsAddition b := fun b hb => hadd b (by simp [hb])
  have hbatch := hsame (p ++ a :: q).length
  rw [shownAt_length, allAtOnce_of_fails hadd hp ha] at hbatch
  have hjson : (shownAt rules item (p ++ a :: q) 0).latestEditJson = none := by
    rw [← hbatch, latestEditJson_settle hfirst, hplain]
  obtain ⟨hnone, hbase⟩ := shownEdit_of_shownAt_zero hitem hadd hjson
  refine ⟨hnone, ?_⟩
  rw [shownAt_zero hadd, hbase, settle_append, settle_cons,
    apply_of_fails (hadd a (by simp)) ha] at hbatch
  have hfrom : ReactionsFrom (p.map (·.ownId)) item := by
    intro key sender info hinfo
    rw [hfresh] at hinfo
    cases hinfo
  apply apply_eq_of_settle_eq (fun b hb => hadd b (by simp [hb]))
    (hfrom.settle hfirst fun b hb => mem_map_of_mem hb) _ hbatch.symm
  intro b hb hmem
  rw [map_append, nodup_append] at hids
  exact hids.2.2 _ hmem _ (mem_map_of_mem (by simp [hb])) rfl

theorem steady_of_same : Steady rules item l := by
  constructor
  · intro p a q hl hp ha
    exact (failures_of_same hitem hplain hadd hsame hfresh hids hl hp ha).2
  · cases happ : applies rules item l with
    | false =>
      obtain ⟨p, a, q, hl, hp, ha⟩ := exists_first_failure happ
      exact Or.inl (failures_of_same hitem hplain hadd hsame hfresh hids hl hp ha).1
    | true =>
      by_cases hshown : ∃ p, p <+: l ∧ shownEdit rules item p ≠ none
      · exact Or.inr ⟨rfl, edits_of_same hitem hplain hadd hsame happ hshown⟩
      · push Not at hshown
        exact Or.inl hshown

end

end Necessity

/-- A sequence of related events is shown the same way wherever the event itself arrives in it,
if and only if the sequence is steady. -/
theorem shown_alike_iff_steady (rules : RoomVersionRules) (s : Aggregations)
    (items : List TimelineItem) (ctx : RemoteContext) (content : TimelineItemContent) (index : ℕ)
    (internalId : String) {l : List Aggregation} (hadd : ∀ a ∈ l, IsAddition a)
    (hids : (l.map (·.ownId)).Nodup)
    (hnew : s.relatedEvents.lookup (.eventId ctx.eventId) = none)
    (hstop : s.pendingBeaconStops.lookup ctx.sender = none)
    (habsent : rfindEventByItemId items (.eventId ctx.eventId) = none) :
    (∀ cut, rendered (arrive rules (.eventId ctx.eventId) (newRemoteItem ctx content) index
          internalId l cut ⟨s, items⟩) (.eventId ctx.eventId) =
        rendered (arrive rules (.eventId ctx.eventId) (newRemoteItem ctx content) index
          internalId l 0 ⟨s, items⟩) (.eventId ctx.eventId)) ↔
      Steady rules (newRemoteItem ctx content) l := by
  have hitem : IsRemote (newRemoteItem ctx content) := ⟨_, newRemoteItem_kind ctx content⟩
  have hid : (newRemoteItem ctx content).eventId = some ctx.eventId := by
    unfold eventId
    rw [newRemoteItem_kind]
  have hplain : (newRemoteItem ctx content).latestEditJson = none := by
    unfold latestEditJson
    rw [newRemoteItem_kind]
  have hkept : Kept (.eventId ctx.eventId) (newRemoteItem ctx content).sender [] s := by
    constructor
    · rw [hnew]
      rfl
    · rw [newRemoteItem_sender]
      exact hstop
  simp only [rendered_arrive hkept hadd hids habsent hid, Option.some.injEq]
  constructor
  · intro hsame
    exact steady_of_same hitem hplain hadd hsame (newRemoteItem_reactions ctx content) hids
  · intro hsteady cut
    exact hsteady.shownAt_eq hitem hadd hids cut

section Inputs

def plainRules : RoomVersionRules := ⟨id, id⟩

def message : TimelineItemContent := .msgLike ⟨.message ⟨"hello", none, false⟩, none, none, none⟩

def messageJson : RawEvent :=
  ⟨some ⟨"@alice", "$message", "m.room.message", none, none, false⟩, some 1⟩

def editJson : RawEvent :=
  ⟨some ⟨"@alice", "$edit", "m.room.message", none, some (some "m.replace", some "$message"), true⟩,
    some 3⟩

def messageEvent : RemoteContext :=
  ⟨"@alice", 1, "$message", none, messageJson, none, none⟩

def like : Aggregation := .new (.eventId "$reaction") (.reaction "+1" "@bob" 2)

def rewording : Aggregation :=
  .new (.eventId "$edit") (.edit ⟨.roomMessage ⟨"goodbye", none⟩, some editJson, none⟩)

/-- A response to a poll, sent to what is not one. -/
def vote : Aggregation := .new (.eventId "$vote") (.pollResponse "@bob" 2 ["yes"])

/-- An edit of ours that waits in the queue. -/
def pendingRewording (transactionId body : String) : Aggregation :=
  .newLocal (.transactionId transactionId) (.edit ⟨.roomMessage ⟨body, none⟩, none, none⟩)

end Inputs

theorem liked_and_edited_message_is_shown_alike :
    rendered (arrive plainRules (.eventId "$message") (newRemoteItem messageEvent message) 0 "id"
        [like, rewording] 2 ⟨.empty, []⟩) (.eventId "$message") =
      rendered (arrive plainRules (.eventId "$message") (newRemoteItem messageEvent message) 0 "id"
        [like, rewording] 0 ⟨.empty, []⟩) (.eventId "$message") := by
  have hadd : ∀ a ∈ [like, rewording], IsAddition a := by
    simp only [mem_cons, not_mem_nil, or_false, forall_eq_or_imp, forall_eq]
    exact ⟨⟨⟨_, rfl⟩, rfl, rfl, by simp [like, Aggregation.new]⟩,
      ⟨⟨_, rfl⟩, rfl, rfl, by simp [rewording, Aggregation.new]⟩⟩
  have happ : applies plainRules (newRemoteItem messageEvent message) [like, rewording] = true := by
    decide
  have hclear : ∀ p ∈ [like, rewording].inits, ∀ shown ∈ (shownEdit plainRules
      (newRemoteItem messageEvent message) p).toList, shown.encryptionInfo = none := by
    decide
  have hmain := shown_alike_iff_steady plainRules .empty [] messageEvent message 0 "id" hadd
    (by decide) (by decide) (by decide) (by decide)
  apply hmain.mpr _ 2
  constructor
  · intro p a q hl hp ha
    rw [hl, applies_append] at happ
    simp [applies, ha] at happ
  · right
    refine ⟨happ, _, rfl, ?_⟩
    intro _ _ p hp shown hshown
    apply hclear p ((mem_inits _ _).mpr hp) shown
    simp [hshown]

/-- A vote on a message hides the reaction after it, if the message arrives last. -/
theorem reaction_after_vote_is_lost :
    let shown := fun cut => rendered (arrive plainRules (.eventId "$message")
      (newRemoteItem messageEvent message) 0 "id" [vote, like] cut ⟨.empty, []⟩)
      (.eventId "$message")
    (shown 0).map (·.reactions) = some [("+1", [("@bob", ⟨2, none, some "$reaction"⟩)])] ∧
      (shown 2).map (·.reactions) = some [] := by
  decide

end MatrixSdk.ArrivalOrder

import MatrixSdk.RoomSendQueues
import Mathlib.Tactic

/-!
Which dependent requests are applied. Of the dependent requests of one parent, the first
redaction is applied alone; without one, the last edit comes first and everything else keeps
its order. Each of those is applied to a storage where it is still stored.
-/
namespace MatrixSdk.CanonicalRequests

open KeyedRows SendQueue SendQueue.QueueStorage RoomSendQueues List DependentQueuedRequestKind

variable {q : QueueStorage} {dependents l : List DependentQueuedRequest}
  {d d' : DependentQueuedRequest} {parent : ℕ} {parents : List ℕ} {answers : Answers}

theorem isRedact_of_find? (h : l.find? (·.kind.isRedact) = some d) : d.kind.isRedact = true := by
  have hsome := find?_some h
  exact hsome

/-- What is kept of the dependent requests of one parent. -/
theorem foldl_canonicalStep :
    l.foldl canonicalStep [] =
      match l.find? (·.kind.isRedact) with
      | some d => [d]
      | none => (l.filter (·.kind.isEdit)).getLast?.toList ++ l.filter (!·.kind.isEdit) := by
  induction l using List.reverseRecOn with
  | nil => rfl
  | append_singleton l d ih =>
    rw [foldl_append, foldl_cons, foldl_nil, ih, find?_append]
    cases hfind : l.find? (·.kind.isRedact) with
    | some e =>
      have hredact := isRedact_of_find? hfind
      simp [canonicalStep, hredact]
    | none =>
      have hnone : ∀ e ∈ l, e.kind.isRedact = false := by simpa using find?_eq_none.mp hfind
      have hprevs : ((l.filter (·.kind.isEdit)).getLast?.toList ++
          l.filter (!·.kind.isEdit)).any (·.kind.isRedact) = false := by
        rw [any_eq_false]
        intro e he
        rcases mem_append.mp he with he | he
        · have hmem := mem_of_getLast? (Option.mem_toList.mp he)
          simp [hnone e (mem_of_mem_filter hmem)]
        · simp [hnone e (mem_of_mem_filter he)]
      simp only [canonicalStep, hprevs, Bool.false_eq_true, if_false, Option.none_or]
      cases hedit : d.kind.isEdit with
      | true =>
        have hnot : d.kind.isRedact = false := by
          revert hedit
          cases d.kind <;> simp [isEdit, isRedact]
        cases hlast : (l.filter (·.kind.isEdit)).getLast? with
        | none =>
          have hany : (l.filter (!·.kind.isEdit)).any (·.kind.isEdit) = false := by simp
          simp [hnot, filter_append, hedit]
        | some e =>
          have he : e.kind.isEdit = true := by simpa using (mem_filter.mp (mem_of_getLast? hlast)).2
          simp [hnot, filter_append, hedit, he, update]
      | false =>
        cases hredact : d.kind.isRedact with
        | true => simp [hredact]
        | false => simp [hredact, filter_append, hedit]

theorem canonicalOf_cases (dependents : List DependentQueuedRequest) (parent : ℕ) :
    (∃ e ∈ dependents, e.parentTransactionId = parent ∧ e.kind.isRedact = true ∧
      canonicalOf dependents parent = [e]) ∨
    ((∀ e ∈ dependents, e.parentTransactionId = parent → e.kind.isRedact = false) ∧
      canonicalOf dependents parent =
        ((dependents.filter (·.parentTransactionId = parent)).filter
          (·.kind.isEdit)).getLast?.toList ++
        (dependents.filter (·.parentTransactionId = parent)).filter (!·.kind.isEdit)) := by
  unfold canonicalOf
  rw [foldl_canonicalStep]
  cases hfind : (dependents.filter (·.parentTransactionId = parent)).find? (·.kind.isRedact) with
  | some e =>
    have hmem := mem_filter.mp (mem_of_find?_eq_some hfind)
    exact .inl ⟨e, hmem.1, by simpa using hmem.2, isRedact_of_find? hfind, rfl⟩
  | none =>
    refine .inr ⟨fun e he hparent => ?_, rfl⟩
    have hnone := find?_eq_none.mp hfind e (by simp [he, hparent])
    simpa using hnone

theorem mem_canonicalOf (h : d ∈ canonicalOf dependents parent) :
    d ∈ dependents ∧ d.parentTransactionId = parent := by
  have hfilter : ∀ e, e ∈ dependents.filter (·.parentTransactionId = parent) →
      e ∈ dependents ∧ e.parentTransactionId = parent := by
    intro e he
    simpa using mem_filter.mp he
  rcases canonicalOf_cases dependents parent with ⟨e, hmem, hparent, -, heq⟩ | ⟨-, heq⟩
  · rw [heq, mem_singleton] at h
    exact h ▸ ⟨hmem, hparent⟩
  · rw [heq] at h
    rcases mem_append.mp h with h | h
    · exact hfilter d (mem_of_mem_filter (mem_of_getLast? (Option.mem_toList.mp h)))
    · exact hfilter d (mem_of_mem_filter h)

/-- One edit is applied. -/
theorem eq_of_isEdit (hd : d ∈ canonicalOf dependents parent) (hedit : d.kind.isEdit = true)
    (hd' : d' ∈ canonicalOf dependents parent) (hedit' : d'.kind.isEdit = true) : d' = d := by
  rcases canonicalOf_cases dependents parent with ⟨e, -, -, -, heq⟩ | ⟨-, heq⟩
  · rw [heq, mem_singleton] at hd hd'
    rw [hd, hd']
  · have hother : ∀ e ∈ (dependents.filter (·.parentTransactionId = parent)).filter
        (!·.kind.isEdit), e.kind.isEdit = false := by
      intro e he
      simpa using (mem_filter.mp he).2
    rw [heq] at hd hd'
    rcases mem_append.mp hd with hd | hd
    · rcases mem_append.mp hd' with hd' | hd'
      · rw [Option.mem_toList] at hd hd'
        exact Option.some_injective _ (hd'.symm.trans hd)
      · simp [hother d' hd'] at hedit'
    · simp [hother d hd] at hedit

theorem canonicalOf_nodup (h : dependents.Nodup) : (canonicalOf dependents parent).Nodup := by
  rcases canonicalOf_cases dependents parent with ⟨e, -, -, -, heq⟩ | ⟨-, heq⟩
  · simp [heq]
  · rw [heq]
    refine nodup_append.mpr ⟨by cases List.getLast? _ <;> simp, (h.filter _).filter _, ?_⟩
    intro a ha b hb hab
    have hedit := (mem_filter.mp (mem_of_getLast? (Option.mem_toList.mp ha))).2
    have hnot := (mem_filter.mp hb).2
    simp [← hab, hedit] at hnot

theorem mem_canonicalize : d ∈ canonicalizeDependentRequests parents dependents ↔
    d.parentTransactionId ∈ parents ∧ d ∈ canonicalOf dependents d.parentTransactionId := by
  unfold canonicalizeDependentRequests
  rw [mem_flatMap]
  constructor
  · rintro ⟨parent, hparent, hd⟩
    rw [(mem_canonicalOf hd).2]
    exact ⟨hparent, hd⟩
  · rintro ⟨hparent, hd⟩
    exact ⟨_, hparent, hd⟩

theorem canonicalize_nodup (hparents : parents.Nodup) (h : dependents.Nodup) :
    (canonicalizeDependentRequests parents dependents).Nodup := by
  unfold canonicalizeDependentRequests
  rw [nodup_flatMap]
  refine ⟨fun parent _ => canonicalOf_nodup h, hparents.imp ?_⟩
  intro p p' hne d hd hd'
  exact hne ((mem_canonicalOf hd).2.symm.trans (mem_canonicalOf hd').2)

/-- What is stored has one redaction and nothing else, or at most one edit, for each parent. -/
structure Canonical (dependents : List DependentQueuedRequest) : Prop where
  redact : ∀ d ∈ dependents, d.kind.isRedact = true →
    ∀ d' ∈ dependents, d'.parentTransactionId = d.parentTransactionId → d' = d
  edit : ∀ d ∈ dependents, d.kind.isEdit = true → ∀ d' ∈ dependents, d'.kind.isEdit = true →
    d'.parentTransactionId = d.parentTransactionId → d' = d

theorem Canonical.subset (h : Canonical dependents) (hsub : l ⊆ dependents) : Canonical l where
  redact := fun d hd hredact d' hd' => h.redact d (hsub hd) hredact d' (hsub hd')
  edit := fun d hd hedit d' hd' => h.edit d (hsub hd) hedit d' (hsub hd')

section Apply

variable (hids : (q.dependents.map (·.ownTransactionId)).Nodup)
  (hparents : ∀ d ∈ q.dependents, d.parentTransactionId ∈ parents)
include hids

theorem mem_removeNonCanonical :
    d ∈ (q.canonicalized parents).dependents ↔
      d ∈ canonicalizeDependentRequests parents q.dependents := by
  simp only [removeNonCanonical, mem_filter, any_eq_true, decide_eq_true_eq]
  constructor
  · rintro ⟨hd, e, he, hown⟩
    have hmem := (mem_canonicalOf (mem_canonicalize.mp he).2).1
    rwa [← inj_on_of_nodup_map hids hmem hd hown]
  · intro hd
    exact ⟨(mem_canonicalOf (mem_canonicalize.mp hd).2).1, d, hd, rfl⟩

theorem canonical_removeNonCanonical :
    Canonical (q.canonicalized parents).dependents where
  redact := by
    intro d hd hredact d' hd' hparent
    rw [mem_removeNonCanonical hids, mem_canonicalize] at hd hd'
    rw [hparent] at hd'
    rcases canonicalOf_cases q.dependents d.parentTransactionId with
      ⟨e, -, -, -, heq⟩ | ⟨hnone, -⟩
    · rw [heq, mem_singleton] at hd hd'
      rw [hd.2, hd'.2]
    · simp [hnone d (mem_canonicalOf hd.2).1 rfl] at hredact
  edit := by
    intro d hd hedit d' hd' hedit' hparent
    rw [mem_removeNonCanonical hids, mem_canonicalize] at hd hd'
    rw [hparent] at hd'
    exact eq_of_isEdit hd.2 hedit hd'.2 hedit'

include hparents

/-- Uploads and media events are never dropped for another dependent request of the parent, as
long as nobody edits or redacts an upload. -/
theorem mem_removeNonCanonical_of_no_redact (hd : d ∈ q.dependents) (hedit : d.kind.isEdit = false)
    (hredact : ∀ e ∈ q.dependents, e.parentTransactionId = d.parentTransactionId →
      e.kind.isRedact = false) :
    d ∈ (q.canonicalized parents).dependents := by
  rw [mem_removeNonCanonical hids, mem_canonicalize]
  refine ⟨hparents d hd, ?_⟩
  rcases canonicalOf_cases q.dependents d.parentTransactionId with
    ⟨e, hmem, hparent, hyes, -⟩ | ⟨-, heq⟩
  · simp [hredact e hmem hparent] at hyes
  · rw [heq]
    apply mem_append_right
    simp [hd, hedit]

end Apply

theorem of_applyDependentRequests {s s' : RoomSendQueue}
    (hstep : Step s (.applyDependentRequests parents answers) s') :
    s.task = .idle ∧ ∀ d ∈ s.queue.dependents, d.parentTransactionId ∈ parents := by
  cases hstep with
  | applyDependentRequests htask _ hparents => exact ⟨htask, hparents⟩

/-- Apply one dependent request, and log it. -/
def applyOne (answers : Answers) (s : RoomSendQueue) (d : DependentQueuedRequest) :
    RoomSendQueue :=
  { s with queue := s.queue.applySingle answers d, log := s.log ++ entriesOf answers d }

theorem foldl_applyOne (s : RoomSendQueue) :
    l.foldl (applyOne answers) s =
      { s with
        queue := l.foldl (applySingle · answers) s.queue
        log := s.log ++ l.flatMap (entriesOf answers) } := by
  induction l generalizing s with
  | nil => simp
  | cons d l ih => simp [ih, applyOne]

theorem applySingle_dependents_of_ne (hd : d' ∈ q.dependents)
    (hne : d'.ownTransactionId ≠ d.ownTransactionId) :
    d' ∈ (q.applySingle answers d).dependents := by
  unfold applySingle
  have hsame : (q.tryApplySingleDependentRequest d (applicationOf answers d)).2.dependents =
      q.dependents := by
    cases applicationOf answers d <;> rfl
  dsimp only
  split
  · apply mem_remove_of_ne _ hne
    rwa [hsame]
  · rwa [hsame]

theorem foldl_applyOne_induct {P : RoomSendQueue → Prop} {s : RoomSendQueue}
    (hnodup : (l.map (·.ownTransactionId)).Nodup) (hl : ∀ d ∈ l, d ∈ s.queue.dependents)
    (hstart : P s)
    (hstep : ∀ s d, d ∈ s.queue.dependents → P s → P (applyOne answers s d)) :
    P (l.foldl (applyOne answers) s) := by
  induction l generalizing s with
  | nil => exact hstart
  | cons d l ih =>
    obtain ⟨hd, hrest⟩ := nodup_cons.mp hnodup
    refine ih hrest (fun d' hd' => ?_) (hstep s d (hl d (by simp)) hstart)
    refine applySingle_dependents_of_ne (hl d' (by simp [hd'])) fun heq => hd ?_
    exact mem_map.mpr ⟨d', hd', heq⟩

/-- What holds once the others have been dropped, and is kept each time one that is stored is
applied, holds when the dependent requests have been applied. -/
theorem applyDependentRequests_induct {P : RoomSendQueue → Prop} {s s' : RoomSendQueue}
    (hids : (s.queue.dependents.map (·.ownTransactionId)).Nodup)
    (hstep : Step s (.applyDependentRequests parents answers) s')
    (hstart : P { s with queue := s.queue.canonicalized parents })
    (hone : ∀ s d, d ∈ s.queue.dependents → P s → P (applyOne answers s d)) :
    ∃ s₁, P s₁ ∧ s' = { s₁ with task := .applied } := by
  cases hstep with
  | applyDependentRequests htask hnodup hparents =>
    have hcanonical : ((canonicalizeDependentRequests parents s.queue.dependents).map
        (·.ownTransactionId)).Nodup := by
      apply List.Nodup.map_on
      · intro d hd d' hd' hown
        exact inj_on_of_nodup_map hids (mem_canonicalOf (mem_canonicalize.mp hd).2).1
          (mem_canonicalOf (mem_canonicalize.mp hd').2).1 hown
      · exact canonicalize_nodup hnodup hids.of_map
    refine ⟨_, foldl_applyOne_induct hcanonical (fun d hd => ?_) hstart hone, ?_⟩
    · exact (mem_removeNonCanonical hids).mpr hd
    · rw [foldl_applyOne]
      rfl

end MatrixSdk.CanonicalRequests

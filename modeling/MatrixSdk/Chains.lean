import MatrixSdk.Chunks
import MatrixSdk.Traces

/-!
What a linked chunk stands for: a chain of identified contents. `Step` is the meaning
of one update on a chain. While items are detached the chain is cut in two, and the
items that are waiting to be put back stand between the two sides; `base` is the
identifier of whatever precedes the chain and is not part of it.
-/
namespace MatrixSdk.Chains

open Chunks Traces LinkedChunk List

variable {Item Gap : Type}

abbrev Chain (Item Gap : Type) := List (ℕ × ChunkContent Item Gap)

def contentItems : ChunkContent Item Gap → List Item
  | .gap _ => []
  | .items items => items

@[simp]
theorem contentItems_gap (g : Gap) : contentItems (.gap g : ChunkContent Item Gap) = [] := rfl

@[simp]
theorem contentItems_items (xs : List Item) :
    contentItems (.items xs : ChunkContent Item Gap) = xs := rfl

theorem numItems_eq (content : ChunkContent Item Gap) :
    content.numItems = (contentItems content).length := by
  cases content <;> rfl

variable (c : Chain Item Gap)

def identifiers : List ℕ := c.map Prod.fst

def itemsOf : List Item := c.flatMap fun chunk => contentItems chunk.2

/-- What a reader meets along the chain: the gaps and the items, in order. -/
inductive Entry (Item Gap : Type) where
  | gap (content : Gap)
  | item (item : Item)

def contentEntries : ChunkContent Item Gap → List (Entry Item Gap)
  | .gap content => [.gap content]
  | .items items => items.map .item

def entriesOf : List (Entry Item Gap) :=
  c.flatMap fun chunk => contentEntries chunk.2

def headIdentifier : Option ℕ := c.head?.map Prod.fst

variable (base : Option ℕ)

def lastIdentifier (c : Chain Item Gap) : Option ℕ :=
  (c.getLast?.map Prod.fst).or base

variable (l r : Chain Item Gap)

@[simp]
theorem identifiers_append :
    identifiers (l ++ r) = identifiers l ++ identifiers r := map_append

variable (id : ℕ)

@[simp]
theorem identifiers_cons (content : ChunkContent Item Gap) (r : Chain Item Gap) :
    identifiers ((id, content) :: r) = id :: identifiers r := rfl

@[simp]
theorem identifiers_nil : identifiers ([] : Chain Item Gap) = [] := rfl

@[simp]
theorem itemsOf_append : itemsOf (l ++ r) = itemsOf l ++ itemsOf r :=
  flatMap_append

@[simp]
theorem itemsOf_cons (content : ChunkContent Item Gap) (r : Chain Item Gap) :
    itemsOf ((id, content) :: r) = contentItems content ++ itemsOf r := rfl

@[simp]
theorem itemsOf_nil : itemsOf ([] : Chain Item Gap) = [] := rfl

@[simp]
theorem entriesOf_append : entriesOf (l ++ r) = entriesOf l ++ entriesOf r :=
  flatMap_append

@[simp]
theorem entriesOf_cons (content : ChunkContent Item Gap) (r : Chain Item Gap) :
    entriesOf ((id, content) :: r) = contentEntries content ++ entriesOf r := rfl

@[simp]
theorem entriesOf_nil : entriesOf ([] : Chain Item Gap) = [] := rfl

@[simp]
theorem contentEntries_gap (g : Gap) :
    contentEntries (.gap g : ChunkContent Item Gap) = [.gap g] := rfl

@[simp]
theorem contentEntries_items (xs : List Item) :
    contentEntries (.items xs : ChunkContent Item Gap) = xs.map .item := rfl

@[simp]
theorem lastIdentifier_nil : lastIdentifier base ([] : Chain Item Gap) = base :=
  rfl

@[simp]
theorem lastIdentifier_append :
    lastIdentifier base (l ++ r) = lastIdentifier (lastIdentifier base l) r := by
  rcases eq_nil_or_concat r with rfl | ⟨r, x, rfl⟩ <;> simp [lastIdentifier]

@[simp]
theorem lastIdentifier_singleton (x : ℕ × ChunkContent Item Gap) :
    lastIdentifier base [x] = some x.1 := rfl

@[simp]
theorem headIdentifier_nil : headIdentifier ([] : Chain Item Gap) = none := rfl

@[simp]
theorem headIdentifier_cons (content : ChunkContent Item Gap) (r : Chain Item Gap) :
    headIdentifier ((id, content) :: r) = some id := rfl

theorem headIdentifier_append_or (next : Option ℕ) (l r : Chain Item Gap) :
    (headIdentifier (l ++ r)).or next = (headIdentifier l).or ((headIdentifier r).or next) := by
  cases l <;> simp [headIdentifier]

theorem lastIdentifier_cons (content : ChunkContent Item Gap) (r : Chain Item Gap) :
    lastIdentifier base ((id, content) :: r) = lastIdentifier (some id) r :=
  lastIdentifier_append base [(id, content)] r

/-- The update stream seen from outside: a whole chain, or a chain that is cut while
items are detached (`reattaching` says whether they are being put back). -/
inductive Phase (Item Gap : Type) where
  | whole (chain : Chain Item Gap)
  | cut (reattaching : Bool) (left : Chain Item Gap) (detached : List Item)
      (right : Chain Item Gap)

namespace Phase

/-- The chain without the detached items. -/
def chain : Phase Item Gap → Chain Item Gap
  | .whole c => c
  | .cut _ left _ right => left ++ right

/-- All the items, detached ones included. -/
def allItems : Phase Item Gap → List Item
  | .whole c => itemsOf c
  | .cut _ left detached right => itemsOf left ++ detached ++ itemsOf right

variable (unloaded : Chain Item Gap)

def prepend : Phase Item Gap → Phase Item Gap
  | .whole c => .whole (unloaded ++ c)
  | .cut reattaching left detached right => .cut reattaching (unloaded ++ left) detached right

@[simp]
theorem chain_prepend (φ : Phase Item Gap) : (φ.prepend unloaded).chain = unloaded ++ φ.chain := by
  cases φ <;> simp [prepend, chain]

@[simp]
theorem allItems_prepend (φ : Phase Item Gap) :
    (φ.prepend unloaded).allItems = itemsOf unloaded ++ φ.allItems := by
  cases φ <;> simp [prepend, allItems]

end Phase

inductive Step (b : Option ℕ) : Phase Item Gap → Update Item Gap → Phase Item Gap → Prop
  | newChunk (l r : Chain Item Gap) (new : ℕ) (content : ChunkContent Item Gap)
      (empty : content.numItems = 0) (fresh : new ∉ identifiers (l ++ r)) :
      Step b (.whole (l ++ r))
        (newChunkUpdate (lastIdentifier b l) new (headIdentifier r) content)
        (.whole (l ++ (new, content) :: r))
  | removeChunk (l r : Chain Item Gap) (id : ℕ) (content : ChunkContent Item Gap)
      (empty : content.numItems = 0) :
      Step b (.whole (l ++ (id, content) :: r)) (.removeChunk id) (.whole (l ++ r))
  | pushItems (l r : Chain Item Gap) (id : ℕ) (items new : List Item) :
      Step b (.whole (l ++ (id, .items items) :: r)) (.pushItems ⟨id, items.length⟩ new)
        (.whole (l ++ (id, .items (items ++ new)) :: r))
  | replaceItem (l r : Chain Item Gap) (id : ℕ) (before after : List Item) (old item : Item) :
      Step b (.whole (l ++ (id, .items (before ++ old :: after)) :: r))
        (.replaceItem ⟨id, before.length⟩ item)
        (.whole (l ++ (id, .items (before ++ item :: after)) :: r))
  | removeItem (l r : Chain Item Gap) (id : ℕ) (before after : List Item) (old : Item) :
      Step b (.whole (l ++ (id, .items (before ++ old :: after)) :: r))
        (.removeItem ⟨id, before.length⟩) (.whole (l ++ (id, .items (before ++ after)) :: r))
  | clear (c : Chain Item Gap) : Step b (.whole c) .clear (.whole [])
  | detachLastItems (l r : Chain Item Gap) (id : ℕ) (items detached : List Item) :
      Step b (.whole (l ++ (id, .items (items ++ detached)) :: r))
        (.detachLastItems ⟨id, items.length⟩) (.cut false (l ++ [(id, .items items)]) detached r)
  | cutNewChunk (reattaching : Bool) (l r : Chain Item Gap) (detached : List Item) (new : ℕ)
      (content : ChunkContent Item Gap) (empty : content.numItems = 0)
      (fresh : new ∉ identifiers (l ++ r)) :
      Step b (.cut reattaching l detached r)
        (newChunkUpdate (lastIdentifier b l) new (headIdentifier r) content)
        (.cut reattaching (l ++ [(new, content)]) detached r)
  | cutPushItems (l r : Chain Item Gap) (detached : List Item) (id : ℕ) (items new : List Item) :
      Step b (.cut false (l ++ [(id, .items items)]) detached r)
        (.pushItems ⟨id, items.length⟩ new)
        (.cut false (l ++ [(id, .items (items ++ new))]) detached r)
  | startReattachItems (l r : Chain Item Gap) (detached : List Item) :
      Step b (.cut false l detached r) .startReattachItems (.cut true l detached r)
  | reattachItems (l r : Chain Item Gap) (detached : List Item) (id : ℕ) (items new : List Item) :
      Step b (.cut true (l ++ [(id, .items items)]) (new ++ detached) r)
        (.pushItems ⟨id, items.length⟩ new)
        (.cut true (l ++ [(id, .items (items ++ new))]) detached r)
  | endReattachItems (l r : Chain Item Gap) :
      Step b (.cut true l [] r) .endReattachItems (.whole (l ++ r))

abbrev Steps (base : Option ℕ) :
    Phase Item Gap → List (Update Item Gap) → Phase Item Gap → Prop := Trace (Step base)

/-- The identifier an update introduces. -/
def newIdentifier : Update Item Gap → Option ℕ
  | .newItemsChunk _ new _ | .newGapChunk _ new _ _ => some new
  | _ => none

@[simp]
theorem newIdentifier_newChunkUpdate (previous next : Option ℕ) (new : ℕ)
    (content : ChunkContent Item Gap) :
    newIdentifier (newChunkUpdate previous new next content) = some new := by
  cases content <;> rfl

/-- An update that removes and replaces no item. -/
def keepsItems : Update Item Gap → Bool
  | .removeItem _ | .replaceItem _ _ | .clear => false
  | _ => true

/-- An update that adds and replaces no item. -/
def addsNoItem : Update Item Gap → Bool
  | .pushItems _ _ | .replaceItem _ _ => false
  | _ => true

variable {base : Option ℕ} {φ φ' : Phase Item Gap} {u : Update Item Gap}

/-- A step on the loaded chunks is the same step on the whole chain. -/
theorem Step.prepend (unloaded : Chain Item Gap) (hu : u ≠ .clear)
    (hfresh : ∀ new, newIdentifier u = some new → new ∉ identifiers unloaded)
    (h : Step (lastIdentifier base unloaded) φ u φ') :
    Step base (φ.prepend unloaded) u (φ'.prepend unloaded) := by
  have hall : ∀ {l r : Chain Item Gap} {new : ℕ}, newIdentifier u = some new →
      new ∉ identifiers (l ++ r) → new ∉ identifiers ((unloaded ++ l) ++ r) := by
    intro l r new heq hnew
    simp only [append_assoc, identifiers_append unloaded, mem_append, not_or]
    exact ⟨hfresh new heq, hnew⟩
  cases h with
  | newChunk l r new content hempty hnew =>
    simpa [Phase.prepend] using
      Step.newChunk (b := base) (unloaded ++ l) r new content hempty (hall (by simp) hnew)
  | removeChunk l r id content hempty =>
    simpa [Phase.prepend] using Step.removeChunk (b := base) (unloaded ++ l) r id content hempty
  | pushItems l r id items new =>
    simpa [Phase.prepend] using Step.pushItems (b := base) (unloaded ++ l) r id items new
  | replaceItem l r id before after old item =>
    simpa [Phase.prepend] using
      Step.replaceItem (b := base) (unloaded ++ l) r id before after old item
  | removeItem l r id before after old =>
    simpa [Phase.prepend] using Step.removeItem (b := base) (unloaded ++ l) r id before after old
  | clear c => exact absurd rfl hu
  | detachLastItems l r id items detached =>
    simpa [Phase.prepend] using
      Step.detachLastItems (b := base) (unloaded ++ l) r id items detached
  | cutNewChunk reattaching l r detached new content hempty hnew =>
    simpa [Phase.prepend] using Step.cutNewChunk (b := base) reattaching (unloaded ++ l) r detached
      new content hempty (hall (by simp) hnew)
  | cutPushItems l r detached id items new =>
    simpa [Phase.prepend] using
      Step.cutPushItems (b := base) (unloaded ++ l) r detached id items new
  | startReattachItems l r detached => exact .startReattachItems _ _ _
  | reattachItems l r detached id items new =>
    simpa [Phase.prepend] using
      Step.reattachItems (b := base) (unloaded ++ l) r detached id items new
  | endReattachItems l r =>
    simpa [Phase.prepend] using Step.endReattachItems (b := base) (unloaded ++ l) r

variable {us : List (Update Item Gap)}

theorem steps_prepend (unloaded : Chain Item Gap) (hclear : .clear ∉ us)
    (hfresh : ∀ u ∈ us, ∀ new, newIdentifier u = some new → new ∉ identifiers unloaded)
    (h : Steps (lastIdentifier base unloaded) φ us φ') :
    Steps base (φ.prepend unloaded) us (φ'.prepend unloaded) := by
  induction h with
  | nil φ => exact .nil _
  | cons head _ ih =>
    refine .cons (head.prepend unloaded ?_ (hfresh _ (by simp))) (ih ?_ ?_)
    · rintro rfl
      simp at hclear
    · exact fun hmem => hclear (mem_cons_of_mem _ hmem)
    · exact fun u hu => hfresh u (mem_cons_of_mem _ hu)

/-- Identifiers stay pairwise distinct. -/
theorem Step.distinct (h : Step base φ u φ') (hdistinct : (identifiers φ.chain).Nodup) :
    (identifiers φ'.chain).Nodup := by
  cases h with
  | newChunk l r new content _ hfresh =>
    simp only [Phase.chain, identifiers_append, identifiers_cons] at hdistinct hfresh ⊢
    exact nodup_middle.mpr (nodup_cons.mpr ⟨hfresh, hdistinct⟩)
  | removeChunk l r id content _ =>
    simp only [Phase.chain, identifiers_append, identifiers_cons] at hdistinct ⊢
    exact (nodup_cons.mp (nodup_middle.mp hdistinct)).2
  | clear c => simp [Phase.chain]
  | cutNewChunk reattaching l r detached new content _ hfresh =>
    simp only [Phase.chain, identifiers_append, identifiers_cons, append_assoc,
      cons_append, nil_append] at hdistinct hfresh ⊢
    exact nodup_middle.mpr (nodup_cons.mpr ⟨hfresh, hdistinct⟩)
  | pushItems | replaceItem | removeItem | detachLastItems | cutPushItems | startReattachItems
  | reattachItems | endReattachItems => simpa [Phase.chain] using hdistinct

theorem Step.replaceItem_inv {position : Position} {item : Item}
    (h : Step base φ (.replaceItem position item) φ') :
    ∃ l r id before after old, φ = .whole (l ++ (id, .items (before ++ old :: after)) :: r) ∧
      position = ⟨id, before.length⟩ := by
  generalize hu : Update.replaceItem position item = u at h
  cases h with
  | replaceItem l r id before after old =>
    cases hu
    exact ⟨l, r, id, before, after, old, rfl, rfl⟩
  | newChunk l r new content | cutNewChunk reattaching l r detached new content =>
    cases content <;> cases hu
  | _ => cases hu

theorem itemsOf_empty_chunk {content : ChunkContent Item Gap} (h : content.numItems = 0) (id : ℕ)
    (r : Chain Item Gap) : itemsOf ((id, content) :: r) = itemsOf r := by
  rw [numItems_eq, length_eq_zero_iff] at h
  rw [itemsOf_cons, h, nil_append]

theorem Step.allItems_of_keepsItems (h : Step base φ u φ') (hu : keepsItems u = true) :
    φ.allItems.Sublist φ'.allItems := by
  cases h with
  | newChunk l r new content hempty =>
    simp [Phase.allItems, itemsOf_empty_chunk hempty new]
  | removeChunk l r id content hempty => simp [Phase.allItems, itemsOf_empty_chunk hempty id]
  | pushItems l r id items new =>
    simp only [Phase.allItems, itemsOf_append, itemsOf_cons, contentItems_items]
    exact ((sublist_append_left items new).append_right _).append_left _
  | replaceItem | removeItem | clear => cases hu
  | cutNewChunk reattaching l r detached new content hempty =>
    simp [Phase.allItems, itemsOf_empty_chunk hempty new]
  | cutPushItems l r detached id items new =>
    simp only [Phase.allItems, itemsOf_append, itemsOf_cons, contentItems_items, itemsOf_nil,
      append_nil, ← append_assoc]
    exact ((sublist_append_left _ new).append_right _).append_right _
  | detachLastItems | startReattachItems | reattachItems | endReattachItems =>
    simp [Phase.allItems]

theorem Step.allItems_of_addsNoItem (h : Step base φ u φ') (hu : addsNoItem u = true) :
    φ'.allItems.Sublist φ.allItems := by
  cases h with
  | newChunk l r new content hempty | cutNewChunk reattaching l r detached new content hempty =>
    simp [Phase.allItems, itemsOf_empty_chunk hempty new]
  | removeChunk l r id content hempty => simp [Phase.allItems, itemsOf_empty_chunk hempty id]
  | removeItem l r id before after old =>
    simp only [Phase.allItems, itemsOf_append, itemsOf_cons, contentItems_items]
    exact (((sublist_cons_self old after).append_left _).append_right _).append_left _
  | clear c => exact nil_sublist _
  | pushItems | replaceItem | cutPushItems | reattachItems => cases hu
  | detachLastItems | startReattachItems | endReattachItems => simp [Phase.allItems]

theorem steps_allItems_of_addsNoItem (h : Steps base φ us φ')
    (hus : ∀ u ∈ us, addsNoItem u = true) : φ'.allItems.Sublist φ.allItems := by
  induction h with
  | nil φ => exact Sublist.refl _
  | cons head _ ih =>
    have htail := ih fun u hu => hus u (mem_cons_of_mem _ hu)
    exact htail.trans (head.allItems_of_addsNoItem (hus _ mem_cons_self))

/-- Items are appended to the last chunk on the left of a cut, and new items chunks are
opened at the cut. -/
inductive Grow (b : Option ℕ) (r : Chain Item Gap) :
    Chain Item Gap → List Item → List (Update Item Gap) → Chain Item Gap → Prop
  | done (left : Chain Item Gap) : Grow b r left [] [] left
  | extend (l : Chain Item Gap) (id : ℕ) (items new rest : List Item)
      {us : List (Update Item Gap)} {left' : Chain Item Gap}
      (tail : Grow b r (l ++ [(id, .items (items ++ new))]) rest us left') :
      Grow b r (l ++ [(id, .items items)]) (new ++ rest)
        (.pushItems ⟨id, items.length⟩ new :: us) left'
  | spill (left : Chain Item Gap) (new : ℕ) {items : List Item}
      {us : List (Update Item Gap)} {left' : Chain Item Gap}
      (fresh : new ∉ identifiers (left ++ r))
      (tail : Grow b r (left ++ [(new, .items [])]) items us left') :
      Grow b r left items
        (.newItemsChunk (lastIdentifier b left) new (headIdentifier r) :: us) left'

namespace Grow

variable {base : Option ℕ} {left right left' : Chain Item Gap} {items : List Item}
  {us : List (Update Item Gap)}

section

variable (h : Grow base right left items us left')
include h

theorem entriesOf_eq : entriesOf left' = entriesOf left ++ items.map .item := by
  induction h with
  | done left => simp
  | extend l id items new rest _ ih => simp [ih]
  | spill left new _ _ ih => simp [ih]

/-- The chunk that grows, and those before it, stay where they are. -/
theorem stays {l more : Chain Item Gap} {id : ℕ} {current : List Item}
    (hleft : left = l ++ (id, .items current) :: more) :
    ∃ current' more', left' = l ++ (id, .items current') :: more' := by
  induction h generalizing current more with
  | done left => exact ⟨current, more, hleft⟩
  | extend l' id' items new rest _ ih =>
    rcases eq_nil_or_concat more with rfl | ⟨more, last, rfl⟩
    · obtain ⟨rfl, hlast⟩ := append_inj' hleft rfl
      cases hlast
      exact ih rfl
    · rw [concat_eq_append, ← cons_append, ← append_assoc] at hleft
      rw [(append_inj' hleft rfl).1] at ih
      exact ih (append_assoc l _ _)
  | spill left new _ _ ih =>
    rw [hleft] at ih
    exact ih (append_assoc l _ _)

theorem keepsItems : ∀ u ∈ us, Chains.keepsItems u = true := by
  induction h with
  | done left => simp
  | extend l id items new rest _ ih => simpa [Chains.keepsItems] using ih
  | spill left new _ _ ih => simpa [Chains.keepsItems] using ih

theorem whole : Steps base (.whole (left ++ right)) us (.whole (left' ++ right)) := by
  induction h with
  | done left => exact .nil _
  | extend l id items new rest _ ih =>
    refine .cons ?_ ih
    simpa using Step.pushItems (b := base) l right id items new
  | spill left new hfresh _ ih =>
    refine .cons ?_ ih
    simpa [newChunkUpdate] using
      Step.newChunk (b := base) left right new (.items []) rfl hfresh

/-- The same growth while items are detached. -/
theorem detached (waiting : List Item) :
    Steps base (.cut false left waiting right) us (.cut false left' waiting right) := by
  induction h with
  | done left => exact .nil _
  | extend l id items new rest _ ih => exact .cons (.cutPushItems l right waiting id items new) ih
  | spill left new hfresh _ ih =>
    refine .cons ?_ ih
    simpa [newChunkUpdate] using
      Step.cutNewChunk (b := base) false left right waiting new (.items []) rfl hfresh

/-- The same growth made of detached items, which are put back. -/
theorem reattached (waiting : List Item) :
    Steps base (.cut true left (items ++ waiting) right) us (.cut true left' waiting right) := by
  induction h with
  | done left => exact .nil _
  | extend l id items new rest _ ih =>
    refine .cons ?_ ih
    simpa using Step.reattachItems (b := base) l right (rest ++ waiting) id items new
  | spill left new hfresh _ ih =>
    refine .cons ?_ ih
    simpa [newChunkUpdate] using
      Step.cutNewChunk (b := base) true left right _ new (.items []) rfl hfresh

end

end Grow

end MatrixSdk.Chains

import MatrixSdk.KeyedMaps
import MatrixSdk.Traces

/-!
The one-time keys and the fallback key of an account. A sync generates them, a request carries
those that are not published when it is built, and a response publishes those that are not
published when it comes. The two are the same keys where no sync generates keys in between.
-/
namespace MatrixSdk.KeyUploads

open KeyedMaps Traces Option

/-! ### The account -/

/-- The operations of a vodozemac account. `oneTimeKeys` and `fallbackKey` are the keys that are not
published, and marking publishes exactly these. In `fallbackKeys` are all fallback keys that were
ever generated, the newest one last. -/
structure AccountLibrary (Inner KeyId : Type) where
  new : Inner
  maxNumberOfOneTimeKeys : Inner → ℕ
  oneTimeKeys : Inner → List KeyId
  fallbackKey : Inner → List KeyId
  fallbackKeys : Inner → List KeyId
  generateOneTimeKeys : ℕ → Inner → Inner
  generateFallbackKey : Inner → Inner
  markKeysAsPublished : Inner → Inner
  fallbackKeys_new : fallbackKeys new = []
  fallbackKey_eq : ∀ inner, fallbackKey inner = [] ∨
    fallbackKey inner = (fallbackKeys inner).getLast?.toList
  generateOneTimeKeys_fallback : ∀ count inner,
    fallbackKey (generateOneTimeKeys count inner) = fallbackKey inner ∧
      fallbackKeys (generateOneTimeKeys count inner) = fallbackKeys inner
  generateFallbackKey_oneTimeKeys : ∀ inner,
    oneTimeKeys (generateFallbackKey inner) = oneTimeKeys inner
  generateFallbackKey_fallback : ∀ inner, ∃ key ∉ fallbackKeys inner,
    fallbackKey (generateFallbackKey inner) = [key] ∧
      fallbackKeys (generateFallbackKey inner) = fallbackKeys inner ++ [key]
  markKeysAsPublished_eq : ∀ inner, oneTimeKeys (markKeysAsPublished inner) = [] ∧
    fallbackKey (markKeysAsPublished inner) = [] ∧
      fallbackKeys (markKeysAsPublished inner) = fallbackKeys inner

variable {Inner KeyId : Type} {library : AccountLibrary Inner KeyId}

inductive OneTimeKeyAlgorithm
  | signedCurve25519
  | custom (name : String)
  deriving DecidableEq

/-- What a response tells about the keys. With sliding sync a missing count means no change. -/
structure KeyCounts where
  oneTimeKeyCounts : KeyedMap OneTimeKeyAlgorithm ℕ
  unusedFallbackKeys : Option (List OneTimeKeyAlgorithm)
  isMissingCountZero : Bool

def KeyCounts.count (counts : KeyCounts) : Option ℕ :=
  if counts.isMissingCountZero then
    some ((counts.oneTimeKeyCounts.lookup .signedCurve25519).getD 0)
  else counts.oneTimeKeyCounts.lookup .signedCurve25519

structure UploadKeysRequest (KeyId : Type) where
  deviceKeys : Bool
  oneTimeKeys : List KeyId
  fallbackKeys : List KeyId
  deriving DecidableEq

structure Account (library : AccountLibrary Inner KeyId) where
  inner : Inner
  shared : Bool
  uploadedSignedKeyCount : ℕ
  /-- In milliseconds. -/
  fallbackCreationTimestamp : Option ℕ

/-- A week, in nanoseconds, as are the times of the clock. -/
def fallbackKeyMaxAge : ℕ := 3600 * 24 * 7 * 10 ^ 9

namespace Account

def newHelper : Account library :=
  ⟨library.generateOneTimeKeys (library.maxNumberOfOneTimeKeys library.new) library.new, false, 0,
    none⟩

variable (account : Account library)

def generateOneTimeKeysIfNeeded : Option ℕ × Account library :=
  let maxKeys := library.maxNumberOfOneTimeKeys account.inner
  if !(library.oneTimeKeys account.inner).isEmpty then (some 0, account)
  else if maxKeys ≤ account.uploadedSignedKeyCount then (none, account)
  else
    let keyCount := maxKeys - account.uploadedSignedKeyCount
    (some keyCount, { account with inner := library.generateOneTimeKeys keyCount account.inner })

variable (now : ℕ)

def fallbackKeyExpired : Bool :=
  match account.fallbackCreationTimestamp with
  | some time =>
    -- the clock has changed to the past
    if now < time * 10 ^ 6 then true else decide (fallbackKeyMaxAge < now - time * 10 ^ 6)
  | none => true

def generateFallbackKeyIfNeeded : Account library :=
  if (library.fallbackKey account.inner).isEmpty && account.fallbackKeyExpired now then
    { account with
      inner := library.generateFallbackKey account.inner
      fallbackCreationTimestamp := some (now / 10 ^ 6) }
  else account

def updateOneTimeKeys (count : Option ℕ) : Account library :=
  match count with
  | some count => { account with uploadedSignedKeyCount := count }.generateOneTimeKeysIfNeeded.2
  | none => account

variable (counts : KeyCounts)

def updateKeyCounts : Account library :=
  let account := account.updateOneTimeKeys counts.count
  if counts.unusedFallbackKeys.isSome || account.fallbackCreationTimestamp.isSome then
    account.generateFallbackKeyIfNeeded now
  else account

/-- The device keys are part of the request until the account is shared. -/
def keysForUpload : Option (UploadKeysRequest KeyId) :=
  let oneTimeKeys := library.oneTimeKeys account.inner
  let fallbackKeys := library.fallbackKey account.inner
  if account.shared && oneTimeKeys.isEmpty && fallbackKeys.isEmpty then none
  else some ⟨!account.shared, oneTimeKeys, fallbackKeys⟩

def markAsPublished : Account library :=
  { account with shared := true, inner := library.markKeysAsPublished account.inner }

def receiveKeysUploadResponse (oneTimeKeyCounts : KeyedMap OneTimeKeyAlgorithm ℕ) :
    Account library :=
  account.markAsPublished.updateKeyCounts now ⟨oneTimeKeyCounts, none, false⟩

/-- The counts make the account generate one-time keys. -/
def generatesOneTimeKeys : Bool :=
  (library.oneTimeKeys account.inner).isEmpty &&
    counts.count.any fun count => decide (count < library.maxNumberOfOneTimeKeys account.inner)

/-- The counts make the account generate a fallback key. -/
def generatesFallbackKey : Bool :=
  (counts.unusedFallbackKeys.isSome || account.fallbackCreationTimestamp.isSome) &&
    ((library.fallbackKey account.inner).isEmpty && account.fallbackKeyExpired now)

/-- The newest fallback key, published or not. -/
def newestFallbackKey : Option KeyId := (library.fallbackKeys account.inner).getLast?

end Account

/-! ### Requests and responses -/

/-- A request, with the newest fallback key at the time it was built. -/
structure Upload (KeyId : Type) where
  request : UploadKeysRequest KeyId
  newest : Option KeyId
  deriving DecidableEq

/-- The upload that the outgoing requests of the account hold. -/
def Account.upload (account : Account library) : Option (Upload KeyId) :=
  account.keysForUpload.map (⟨·, account.newestFallbackKey⟩)

/-- The keys of the account that the server was sent; a fallback key replaces the one before. -/
structure Server (KeyId : Type) where
  oneTimeKeys : List KeyId
  fallback : Option KeyId

def Server.accept (server : Server KeyId) (request : UploadKeysRequest KeyId) : Server KeyId :=
  ⟨server.oneTimeKeys ++ request.oneTimeKeys, request.fallbackKeys.head?.or server.fallback⟩

structure Client (library : AccountLibrary Inner KeyId) where
  account : Account library
  inFlight : Option (Upload KeyId)
  server : Server KeyId
  /-- The newest fallback keys at the times the successful uploads were built. -/
  succeeded : List KeyId

inductive Op
  | sync (now : ℕ) (counts : KeyCounts)
  | build
  /-- The client gets no response; the server may have accepted the request. -/
  | fail (accepted : Bool)
  | respond (now : ℕ) (oneTimeKeyCounts : KeyedMap OneTimeKeyAlgorithm ℕ)

namespace Client

def new : Client library := ⟨.newHelper, none, ⟨[], none⟩, []⟩

def act (client : Client library) : Op → Client library
  | .sync now counts => { client with account := client.account.updateKeyCounts now counts }
  | .build =>
    if client.inFlight.isSome then client else { client with inFlight := client.account.upload }
  | .fail accepted =>
    match client.inFlight with
    | some upload =>
      { client with
        inFlight := none
        server := if accepted then client.server.accept upload.request else client.server }
    | none => client
  | .respond now oneTimeKeyCounts =>
    match client.inFlight with
    | some upload =>
      { account := client.account.receiveKeysUploadResponse now oneTimeKeyCounts
        inFlight := none
        server := client.server.accept upload.request
        succeeded := client.succeeded ++ upload.newest.toList }
    | none => client

/-- No key is generated while a request is in flight. -/
def Careful (client : Client library) : Op → Prop
  | .sync now counts => client.inFlight.isSome = true →
    client.account.generatesOneTimeKeys counts = false ∧
      client.account.generatesFallbackKey now counts = false
  | _ => True

def CarefulStep (client : Client library) (op : Op) (client' : Client library) : Prop :=
  client.Careful op ∧ client' = client.act op

end Client

/-! ### What an update of the counts generates -/

section Generated

variable (account : Account library) (now : ℕ) (counts : KeyCounts)

/-- One-time keys are generated only if none is left to be published. -/
theorem updateOneTimeKeys_eq :
    ∃ uploaded inner, account.updateOneTimeKeys counts.count =
      { account with uploadedSignedKeyCount := uploaded, inner := inner } ∧
      (inner = account.inner ∨ library.oneTimeKeys account.inner = [] ∧
        (∃ generated, inner = library.generateOneTimeKeys generated account.inner) ∧
        account.generatesOneTimeKeys counts = true) := by
  unfold Account.generatesOneTimeKeys
  cases counts.count with
  | none => exact ⟨_, account.inner, rfl, .inl rfl⟩
  | some count =>
    simp only [Account.updateOneTimeKeys, Account.generateOneTimeKeysIfNeeded]
    split
    · exact ⟨count, account.inner, rfl, .inl rfl⟩
    · next hempty =>
      simp only [Bool.not_eq_true', Bool.not_eq_false, List.isEmpty_iff] at hempty
      split
      · exact ⟨count, account.inner, rfl, .inl rfl⟩
      · next hcount =>
        refine ⟨count, _, rfl, .inr ⟨hempty, ⟨_, rfl⟩, ?_⟩⟩
        simpa [hempty] using hcount

/-- A fallback key is generated only if none is left to be published. -/
theorem updateKeyCounts_eq :
    ∃ uploaded timestamp inner inner', account.updateKeyCounts now counts =
        { account with
          uploadedSignedKeyCount := uploaded
          fallbackCreationTimestamp := timestamp
          inner := inner' } ∧
      (inner = account.inner ∨ library.oneTimeKeys account.inner = [] ∧
        (∃ generated, inner = library.generateOneTimeKeys generated account.inner) ∧
        account.generatesOneTimeKeys counts = true) ∧
      (inner' = inner ∨ library.fallbackKey account.inner = [] ∧
        inner' = library.generateFallbackKey inner ∧
        account.generatesFallbackKey now counts = true) := by
  obtain ⟨uploaded, inner, heq, hinner⟩ := updateOneTimeKeys_eq account counts
  have hfallback : library.fallbackKey inner = library.fallbackKey account.inner := by
    rcases hinner with rfl | ⟨-, ⟨generated, rfl⟩, -⟩
    · rfl
    · exact (library.generateOneTimeKeys_fallback generated account.inner).1
  unfold Account.updateKeyCounts
  rw [heq]
  dsimp only
  split
  · next hsupported =>
    unfold Account.generateFallbackKeyIfNeeded
    dsimp only
    rw [hfallback]
    split
    · next hneeded =>
      have hempty : library.fallbackKey account.inner = [] := by
        simp [Bool.and_eq_true] at hneeded
        exact hneeded.1
      refine ⟨uploaded, _, inner, _, rfl, hinner, .inr ⟨hempty, rfl, ?_⟩⟩
      unfold Account.generatesFallbackKey
      rw [hsupported]
      exact hneeded
    · exact ⟨uploaded, _, inner, inner, rfl, hinner, .inl rfl⟩
  · exact ⟨uploaded, _, inner, inner, rfl, hinner, .inl rfl⟩

variable {account now counts}

/-- The keys of an account that stay: those that are not published, until others are generated. -/
theorem oneTimeKeys_updateKeyCounts (hkeys : library.oneTimeKeys account.inner ≠ []) :
    library.oneTimeKeys (account.updateKeyCounts now counts).inner =
      library.oneTimeKeys account.inner := by
  obtain ⟨_, _, inner, inner', heq, hinner, hinner'⟩ := updateKeyCounts_eq account now counts
  obtain rfl : inner = account.inner := hinner.resolve_right fun h => hkeys h.1
  rw [heq]
  rcases hinner' with rfl | ⟨-, rfl, -⟩
  · rfl
  · exact library.generateFallbackKey_oneTimeKeys _

/-- What becomes of the fallback key. -/
theorem fallback_updateKeyCounts :
    (library.fallbackKey (account.updateKeyCounts now counts).inner =
        library.fallbackKey account.inner ∧
      library.fallbackKeys (account.updateKeyCounts now counts).inner =
        library.fallbackKeys account.inner) ∨
    (library.fallbackKey account.inner = [] ∧ ∃ key ∉ library.fallbackKeys account.inner,
      library.fallbackKey (account.updateKeyCounts now counts).inner = [key] ∧
      library.fallbackKeys (account.updateKeyCounts now counts).inner =
        library.fallbackKeys account.inner ++ [key]) := by
  obtain ⟨_, _, inner, inner', heq, hinner, hinner'⟩ := updateKeyCounts_eq account now counts
  have hsame : library.fallbackKey inner = library.fallbackKey account.inner ∧
      library.fallbackKeys inner = library.fallbackKeys account.inner := by
    rcases hinner with rfl | ⟨-, ⟨generated, rfl⟩, -⟩
    · exact ⟨rfl, rfl⟩
    · exact library.generateOneTimeKeys_fallback generated account.inner
  rw [heq]
  rcases hinner' with rfl | ⟨hempty, rfl, -⟩
  · exact .inl hsame
  · have hgenerated := library.generateFallbackKey_fallback inner
    rw [hsame.2] at hgenerated
    exact .inr ⟨hempty, hgenerated⟩

end Generated

/-! ### Careful runs -/

/-- The request in flight is the one that would be built now, and the server has the newest
fallback key once it is published. -/
structure Current (client : Client library) : Prop where
  inFlight : ∀ upload, client.inFlight = some upload → client.account.upload = some upload
  held : library.fallbackKey client.account.inner = [] →
    ∀ key, client.account.newestFallbackKey = some key → client.server.fallback = some key
  succeeded : ∀ key ∈ client.succeeded, key ∈ library.fallbackKeys client.account.inner ∧
    key ∉ library.fallbackKey client.account.inner

section Steps

variable {client : Client library} {upload : Upload KeyId} {now : ℕ} {counts : KeyCounts}

/-- An update of the counts keeps all but the request in flight. -/
theorem Current.update (h : Current client) (hinFlight : ∀ upload, client.inFlight = some upload →
      (client.account.updateKeyCounts now counts).upload = some upload) :
    Current { client with account := client.account.updateKeyCounts now counts } := by
  rcases @fallback_updateKeyCounts _ _ _ client.account now counts with
    ⟨hfallback, hkeys⟩ | ⟨-, key, hfresh, hfallback, hkeys⟩
  · refine ⟨hinFlight, ?_, ?_⟩
    all_goals simp only [Account.newestFallbackKey, hfallback, hkeys]
    · exact h.held
    · exact h.succeeded
  · refine ⟨hinFlight, fun hempty => ?_, fun other hother => ?_⟩
    · rw [hfallback] at hempty
      cases hempty
    · have hmem := (h.succeeded other hother).1
      rw [hfallback, hkeys]
      refine ⟨List.mem_append_left _ hmem, fun heq => ?_⟩
      rw [List.mem_singleton.mp heq] at hmem
      exact hfresh hmem

section

variable (h : Current client) (hinFlight : client.inFlight = some upload)
include h hinFlight

/-- The request in flight holds the keys that are not published. -/
theorem Current.request_eq :
    upload = ⟨⟨!client.account.shared, library.oneTimeKeys client.account.inner,
      library.fallbackKey client.account.inner⟩, client.account.newestFallbackKey⟩ := by
  have hupload := h.inFlight upload hinFlight
  simp only [Account.upload, Account.keysForUpload] at hupload
  split at hupload
  · cases hupload
  · exact (Option.some.inj hupload).symm

/-- The server accepts the request in flight: it has the newest fallback key then. -/
theorem Current.accept {key : KeyId} (hkey : client.account.newestFallbackKey = some key) :
    (client.server.accept upload.request).fallback = some key := by
  rw [h.request_eq hinFlight]
  rcases library.fallbackKey_eq client.account.inner with hempty | hnewest
  · simp [Server.accept, hempty, h.held hempty key hkey]
  · rw [Account.newestFallbackKey] at hkey
    simp [Server.accept, hnewest, hkey]

/-- A response publishes the keys of the request. -/
theorem Current.publish :
    Current ⟨client.account.markAsPublished, none, client.server.accept upload.request,
      client.succeeded ++ upload.newest.toList⟩ := by
  obtain ⟨-, hnone, hkeys⟩ := library.markKeysAsPublished_eq client.account.inner
  refine ⟨nofun, fun _ key hkey => ?_, fun key hkey => ⟨?_, ?_⟩⟩
  · refine h.accept hinFlight ?_
    rwa [Account.newestFallbackKey, Account.markAsPublished, hkeys] at hkey
  · simp only [Account.markAsPublished, hkeys]
    rcases List.mem_append.mp hkey with hbefore | hnewest
    · exact (h.succeeded key hbefore).1
    · rw [h.request_eq hinFlight] at hnewest
      exact List.mem_of_getLast? (mem_toList.mp hnewest)
  · simp [Account.markAsPublished, hnone]

end

variable {op : Op}

theorem Current.act (h : Current client) (hcareful : client.Careful op) :
    Current (client.act op) := by
  cases op with
  | sync now counts =>
    refine h.update fun upload hinFlight => ?_
    obtain ⟨hone, hfallback⟩ := hcareful (by rw [hinFlight]; rfl)
    -- where nothing is generated, the same request is built
    have hsame : (client.account.updateKeyCounts now counts).upload = client.account.upload := by
      obtain ⟨_, _, inner, inner', heq, hinner, hinner'⟩ :=
        updateKeyCounts_eq client.account now counts
      obtain rfl : inner = client.account.inner :=
        hinner.resolve_right fun hgenerates => by simp [hone] at hgenerates
      obtain rfl : inner' = client.account.inner :=
        hinner'.resolve_right fun hgenerates => by simp [hfallback] at hgenerates
      rw [heq]
      rfl
    rw [hsame]
    exact h.inFlight upload hinFlight
  | build =>
    simp only [Client.act]
    split
    · exact h
    · exact ⟨fun _ hupload => hupload, h.held, h.succeeded⟩
  | fail accepted =>
    simp only [Client.act]
    split
    · next upload hinFlight =>
      refine ⟨nofun, fun hempty key hkey => ?_, h.succeeded⟩
      cases accepted with
      | false => exact h.held hempty key hkey
      | true => exact h.accept hinFlight hkey
    · exact h
  | respond now counts =>
    simp only [Client.act]
    split
    · next upload hinFlight => exact (h.publish hinFlight).update nofun
    · exact h

/-- Only a response publishes keys. -/
theorem respond_of_publishes {key : KeyId} (hpublishes :
    (key ∈ library.oneTimeKeys client.account.inner ∧
      key ∉ library.oneTimeKeys (client.act op).account.inner) ∨
    key ∈ library.fallbackKey client.account.inner ∧
      key ∉ library.fallbackKey (client.act op).account.inner) :
    ∃ now counts upload, op = .respond now counts ∧ client.inFlight = some upload := by
  have hsame : (client.act op).account ≠ client.account := by
    intro heq
    rw [heq] at hpublishes
    rcases hpublishes with ⟨hkey, hnot⟩ | ⟨hkey, hnot⟩ <;> exact hnot hkey
  cases op with
  | sync now counts =>
    rcases hpublishes with ⟨hkey, hnot⟩ | ⟨hkey, hnot⟩
    · refine absurd ?_ hnot
      simp only [Client.act]
      rwa [oneTimeKeys_updateKeyCounts (List.ne_nil_of_mem hkey)]
    · rcases @fallback_updateKeyCounts _ _ _ client.account now counts with
        ⟨hfallback, -⟩ | ⟨hempty, -⟩
      · exact absurd (hfallback ▸ hkey) hnot
      · rw [hempty] at hkey
        cases hkey
  | build =>
    refine absurd ?_ hsame
    simp only [Client.act]
    split <;> rfl
  | fail accepted =>
    refine absurd ?_ hsame
    simp only [Client.act]
    split <;> rfl
  | respond now counts =>
    cases hinFlight : client.inFlight with
    | some upload => exact ⟨now, counts, upload, rfl, rfl⟩
    | none => exact absurd (by simp only [Client.act, hinFlight]) hsame

end Steps

/-- In every run in which no sync generates keys while a request is in flight, a key becomes
published only by the response to a request that holds it, and the server has the newest fallback
key once an upload has succeeded that was built after its creation. -/
theorem published_keys_were_uploaded {client : Client library} {ops : List Op}
    (hrun : Trace Client.CarefulStep .new ops client) :
    (∀ op, ∀ key ∈ library.oneTimeKeys client.account.inner,
      key ∉ library.oneTimeKeys (client.act op).account.inner →
      ∃ now counts upload, op = .respond now counts ∧ client.inFlight = some upload ∧
        key ∈ upload.request.oneTimeKeys) ∧
    (∀ op, ∀ key ∈ library.fallbackKey client.account.inner,
      key ∉ library.fallbackKey (client.act op).account.inner →
      ∃ now counts upload, op = .respond now counts ∧ client.inFlight = some upload ∧
        key ∈ upload.request.fallbackKeys) ∧
    (∀ key, client.account.newestFallbackKey = some key →
      key ∈ client.succeeded → client.server.fallback = some key) := by
  have h : Current client := by
    refine hrun.preserves ?_ ⟨nofun, fun _ key hkey => ?_, nofun⟩
    · rintro _ op _ h ⟨hcareful, rfl⟩
      exact h.act hcareful
    · simp [Account.newestFallbackKey, Client.new, Account.newHelper,
        (library.generateOneTimeKeys_fallback _ _).2, library.fallbackKeys_new] at hkey
  refine ⟨fun op key hkey hnot => ?_, fun op key hkey hnot => ?_, fun key hkey hsucceeded => ?_⟩
  · obtain ⟨now, counts, upload, hop, hinFlight⟩ := respond_of_publishes (.inl ⟨hkey, hnot⟩)
    refine ⟨now, counts, upload, hop, hinFlight, ?_⟩
    rw [h.request_eq hinFlight]
    exact hkey
  · obtain ⟨now, counts, upload, hop, hinFlight⟩ := respond_of_publishes (.inr ⟨hkey, hnot⟩)
    refine ⟨now, counts, upload, hop, hinFlight, ?_⟩
    rw [h.request_eq hinFlight]
    exact hkey
  · rcases library.fallbackKey_eq client.account.inner with hempty | hnewest
    · exact h.held hempty key hkey
    · refine absurd ?_ (h.succeeded key hsucceeded).2
      rw [Account.newestFallbackKey] at hkey
      simp [hnewest, hkey]

/-- Keys that are numbered: those to be published, how many there were, the number of fallback keys
and whether the last one is published. -/
structure NumberedKeys where
  oneTimeKeys : List ℕ
  nextOneTimeKey : ℕ
  fallbackKeys : ℕ
  isPublished : Bool

def numberedKeys (maxNumberOfOneTimeKeys : ℕ) : AccountLibrary NumberedKeys ℕ where
  new := ⟨[], 0, 0, true⟩
  maxNumberOfOneTimeKeys _ := maxNumberOfOneTimeKeys
  oneTimeKeys := NumberedKeys.oneTimeKeys
  fallbackKey keys :=
    if keys.isPublished then [] else (List.range keys.fallbackKeys).getLast?.toList
  fallbackKeys keys := List.range keys.fallbackKeys
  generateOneTimeKeys count keys :=
    { keys with
      oneTimeKeys := keys.oneTimeKeys ++ List.range' keys.nextOneTimeKey count
      nextOneTimeKey := keys.nextOneTimeKey + count }
  generateFallbackKey keys :=
    { keys with fallbackKeys := keys.fallbackKeys + 1, isPublished := false }
  markKeysAsPublished keys := { keys with oneTimeKeys := [], isPublished := true }
  fallbackKeys_new := rfl
  fallbackKey_eq keys := by cases keys.isPublished <;> simp
  generateOneTimeKeys_fallback _ _ := ⟨rfl, rfl⟩
  generateFallbackKey_oneTimeKeys _ := rfl
  generateFallbackKey_fallback keys :=
    ⟨keys.fallbackKeys, by simp, by simp [List.range_succ], List.range_succ⟩
  markKeysAsPublished_eq _ := ⟨rfl, rfl, rfl⟩

/-- A new account uploads its keys, and a fallback key after the next sync. -/
theorem fallback_key_reaches_server :
    ∃ client : Client (numberedKeys 1), Trace Client.CarefulStep .new
      [.build, .respond 0 ∅, .sync 0 ⟨∅, some [], false⟩, .build, .respond 0 ∅] client ∧
      client.account.newestFallbackKey = some 0 ∧ client.server.fallback = some 0 := by
  refine ⟨_, and_of_imp (.cons ⟨trivial, rfl⟩ (.cons ⟨trivial, rfl⟩ (.cons ⟨nofun, rfl⟩
    (.cons ⟨trivial, rfl⟩ (.single ⟨trivial, rfl⟩))))) fun hrun => ⟨rfl, ?_⟩⟩
  exact (published_keys_were_uploaded hrun).2.2 0 rfl (by decide)

/-- The first sync comes while the first upload is in flight. The fallback key it generates is
published by the response, though the request does not hold it, and no other request is built. -/
theorem fallback_key_published_without_upload :
    ∃ before client : Client (numberedKeys 50),
      before = [.build, .sync 0 ⟨∅, some [], true⟩].foldl Client.act .new ∧
      client = before.act (.respond 0 (AList.singleton .signedCurve25519 50)) ∧
      (numberedKeys 50).fallbackKey before.account.inner = [0] ∧
      (numberedKeys 50).fallbackKey client.account.inner = [] ∧
      client.account.newestFallbackKey = some 0 ∧
      before.inFlight = some ⟨⟨true, List.range 50, []⟩, none⟩ ∧
      client.server.fallback = none ∧ client.account.upload = none :=
  ⟨_, _, rfl, rfl, by decide⟩

end MatrixSdk.KeyUploads

import Obsetync.Devices.Registry

namespace Obsetync.Devices
open Faults

def Disk.recordAt (disk : Disk) (name : String) : Option Record :=
  (Assoc.find disk.folders name).bind Folder.record

def Disk.markerAt (disk : Disk) (name : String) : Option Marker :=
  (Assoc.find disk.folders name).bind Folder.revoked

section Disk

variable {disk : Disk} {name other : String} {f : Folder → Folder}

@[simp] theorem Disk.recordAt_createDir :
    (disk.createDir name).recordAt other = disk.recordAt other := by
  rw [createDir]
  split
  · rfl
  · next h =>
    rw [recordAt, recordAt, Assoc.find_set]
    split_ifs with heq
    · rw [heq, h]
      rfl
    · rfl

@[simp] theorem Disk.markerAt_createDir :
    (disk.createDir name).markerAt other = disk.markerAt other := by
  rw [createDir]
  split
  · rfl
  · next h =>
    rw [markerAt, markerAt, Assoc.find_set]
    split_ifs with heq
    · rw [heq, h]
      rfl
    · rfl

theorem Disk.find_createDir : (Assoc.find (disk.createDir name).folders name).isSome := by
  rw [createDir]
  split
  · next h =>
    rw [h]
    rfl
  · rw [Assoc.find_set, if_pos rfl]
    rfl

theorem Disk.recordAt_setFolder : (disk.setFolder name f).recordAt other =
    if other = name then (Assoc.find disk.folders other).bind fun folder => (f folder).record
    else disk.recordAt other := by
  rw [recordAt, setFolder, Assoc.find_adjust]
  split_ifs
  · rw [Option.bind_map]
    rfl
  · rfl

theorem Disk.markerAt_setFolder : (disk.setFolder name f).markerAt other =
    if other = name then (Assoc.find disk.folders other).bind fun folder => (f folder).revoked
    else disk.markerAt other := by
  rw [markerAt, setFolder, Assoc.find_adjust]
  split_ifs
  · rw [Option.bind_map]
    rfl
  · rfl

end Disk

variable {Own : String → String → Prop} {barred : String → Prop} {disk : Disk}
  {registry : Registry} {name token : String} {info : DeviceInfo} {plans : Plan → Prop}

/-- What holds on disk: records and token files belong to the device they name, and the record of a
barred device has its marker beside it. -/
structure DiskInv (Own : String → String → Prop) (barred : String → Prop) (disk : Disk) :
    Prop where
  record : ∀ name info, disk.recordAt name = some (.json info) → info.deviceId = name →
    Own info.bearerToken name
  token : ∀ token file, (token, file) ∈ disk.tokens → Own token file.deviceId
  marked : ∀ name, barred name → (disk.recordAt name).isSome → (disk.markerAt name).isSome

/-- What holds in memory: the two maps fit, and a barred device is revoked. -/
structure RegistryInv (Own : String → String → Prop) (barred : String → Prop)
    (registry : Registry) : Prop where
  entry : ∀ id e, Assoc.find registry.byId id = some e →
    e.deviceId = id ∧ Own e.bearerToken id ∧ Assoc.find registry.byToken e.bearerToken = some id
  token : ∀ token id, Assoc.find registry.byToken token = some id →
    ∃ e, Assoc.find registry.byId id = some e ∧ e.bearerToken = token
  revoked : ∀ id e, barred id → Assoc.find registry.byId id = some e → e.revoked = true

structure Inv (Own : String → String → Prop) (barred : String → Prop) (host : Host) : Prop where
  disk : DiskInv Own barred host.disk
  registry : RegistryInv Own barred host.registry

theorem DiskInv.congr (h : DiskInv Own barred disk)
    (hrecord : ∀ name, disk'.recordAt name = disk.recordAt name)
    (hmarker : ∀ name, disk'.markerAt name = disk.markerAt name)
    (htoken : ∀ token file, (token, file) ∈ disk'.tokens → Own token file.deviceId) :
    DiskInv Own barred disk' := by
  refine ⟨?_, htoken, ?_⟩
  · intro name info
    rw [hrecord]
    exact h.record name info
  · intro name
    rw [hrecord, hmarker]
    exact h.marked name

theorem DiskInv.createDir (h : DiskInv Own barred disk) : DiskInv Own barred (disk.createDir name) := by
  refine h.congr (fun _ => Disk.recordAt_createDir) (fun _ => Disk.markerAt_createDir) ?_
  have htokens : (disk.createDir name).tokens = disk.tokens := by
    rw [Disk.createDir]
    split <;> rfl
  rw [htokens]
  exact h.token

theorem DiskInv.setToken (h : DiskInv Own barred disk) (hown : Own token name) (now : Nat) :
    DiskInv Own barred { disk with tokens := Assoc.set disk.tokens token ⟨name, now⟩ } := by
  refine h.congr (fun _ => rfl) (fun _ => rfl) ?_
  intro token' file hfile
  rcases List.mem_cons.1 hfile with heq | hmem
  · cases heq
    exact hown
  · exact h.token token' file (List.mem_filter.1 hmem).1

theorem DiskInv.eraseToken (h : DiskInv Own barred disk) :
    DiskInv Own barred { disk with tokens := Assoc.erase disk.tokens token } := by
  refine h.congr (fun _ => rfl) (fun _ => rfl) ?_
  intro token' file hfile
  exact h.token token' file (List.mem_filter.1 hfile).1

theorem DiskInv.setRecord (h : DiskInv Own barred disk) (hown : Own info.bearerToken info.deviceId)
    (hmark : barred info.deviceId → (disk.markerAt info.deviceId).isSome) :
    DiskInv Own barred (disk.setFolder info.deviceId fun folder =>
      { folder with record := some (.json info) }) := by
  have hmarker (name : String) : (disk.setFolder info.deviceId fun folder =>
      { folder with record := some (.json info) }).markerAt name = disk.markerAt name := by
    rw [Disk.markerAt_setFolder]
    split_ifs <;> rfl
  refine ⟨?_, h.token, ?_⟩
  · intro name info'
    rw [Disk.recordAt_setFolder]
    split_ifs with heq
    · intro hrecord hid
      obtain ⟨folder, -, hjson⟩ := Option.bind_eq_some_iff.1 hrecord
      cases hjson
      rw [heq]
      exact hown
    · exact h.record name info'
  · intro name hbarred hrecord
    rw [hmarker]
    by_cases heq : name = info.deviceId
    · rw [heq] at hbarred ⊢
      exact hmark hbarred
    · rw [Disk.recordAt_setFolder, if_neg heq] at hrecord
      exact h.marked name hbarred hrecord

theorem DiskInv.setMarker (h : DiskInv Own barred disk) (marker : Marker) :
    DiskInv Own barred (disk.setFolder name fun folder => { folder with revoked := some marker }) := by
  have hrecord (other : String) : (disk.setFolder name fun folder =>
      { folder with revoked := some marker }).recordAt other = disk.recordAt other := by
    rw [Disk.recordAt_setFolder]
    split_ifs <;> rfl
  refine ⟨?_, h.token, ?_⟩
  · intro other info
    rw [hrecord]
    exact h.record other info
  · intro other hbarred hsome
    rw [hrecord] at hsome
    rw [Disk.markerAt_setFolder]
    split_ifs with heq
    · obtain ⟨record, hrec⟩ := Option.isSome_iff_exists.1 hsome
      obtain ⟨folder, hfolder, -⟩ := Option.bind_eq_some_iff.1 hrec
      rw [hfolder]
      rfl
    · exact h.marked other hbarred hsome

theorem RegistryInv.adjust (h : RegistryInv Own barred registry) {id : String}
    {f : RegistryEntry → RegistryEntry} (hid : ∀ e, (f e).deviceId = e.deviceId)
    (htoken : ∀ e, (f e).bearerToken = e.bearerToken)
    (hrevoked : ∀ e, e.revoked = true → (f e).revoked = true) :
    RegistryInv Own barred { registry with byId := Assoc.adjust registry.byId id f } := by
  have hfind {id' : String} {e : RegistryEntry}
      (he : Assoc.find (Assoc.adjust registry.byId id f) id' = some e) :
      ∃ e₀, Assoc.find registry.byId id' = some e₀ ∧ e.deviceId = e₀.deviceId ∧
        e.bearerToken = e₀.bearerToken ∧ (e₀.revoked = true → e.revoked = true) := by
    rw [Assoc.find_adjust] at he
    split_ifs at he
    · obtain ⟨e₀, he₀, rfl⟩ := Option.map_eq_some_iff.1 he
      exact ⟨e₀, he₀, hid e₀, htoken e₀, hrevoked e₀⟩
    · exact ⟨e, he, rfl, rfl, fun hrev => hrev⟩
  refine ⟨?_, ?_, ?_⟩
  · intro id' e he
    obtain ⟨e₀, he₀, hid₀, htoken₀, -⟩ := hfind he
    rw [hid₀, htoken₀]
    exact h.entry id' e₀ he₀
  · intro token id' htok
    obtain ⟨e, he, hetoken⟩ := h.token token id' htok
    change ∃ e', Assoc.find (Assoc.adjust registry.byId id f) id' = some e' ∧ _
    rw [Assoc.find_adjust]
    split_ifs
    · exact ⟨f e, by rw [he]; rfl, (htoken e).trans hetoken⟩
    · exact ⟨e, he, hetoken⟩
  · intro id' e hbarred he
    obtain ⟨e₀, he₀, -, -, hrev⟩ := hfind he
    exact hrev (h.revoked id' e₀ hbarred he₀)

theorem RegistryInv.insert (h : RegistryInv Own barred registry) {entry : RegistryEntry}
    (hid : Assoc.find registry.byId entry.deviceId = none)
    (htoken : Assoc.find registry.byToken entry.bearerToken = none)
    (hown : Own entry.bearerToken entry.deviceId)
    (hrevoked : barred entry.deviceId → entry.revoked = true) :
    RegistryInv Own barred (registry.insert entry) := by
  refine ⟨?_, ?_, ?_⟩
  · intro id e he
    change Assoc.find (Assoc.set registry.byId entry.deviceId entry) id = some e at he
    change _ ∧ _ ∧ Assoc.find (Assoc.set registry.byToken entry.bearerToken entry.deviceId) _ = _
    rw [Assoc.find_set] at he ⊢
    split_ifs at he with heq
    · cases he
      exact ⟨heq.symm, heq ▸ hown, (if_pos rfl).trans (congrArg some heq.symm)⟩
    · obtain ⟨hid', hown', htok⟩ := h.entry id e he
      refine ⟨hid', hown', ?_⟩
      rw [if_neg, htok]
      intro hsame
      rw [hsame, htoken] at htok
      cases htok
  · intro token id htok
    change Assoc.find (Assoc.set registry.byToken entry.bearerToken entry.deviceId) _ = _ at htok
    change ∃ e, Assoc.find (Assoc.set registry.byId entry.deviceId entry) id = some e ∧ _
    rw [Assoc.find_set] at htok ⊢
    split_ifs at htok with heq
    · cases htok
      exact ⟨entry, if_pos rfl, heq.symm⟩
    · obtain ⟨e, he, hetoken⟩ := h.token token id htok
      refine ⟨e, ?_, hetoken⟩
      rw [if_neg, he]
      intro hsame
      rw [hsame, hid] at he
      cases he
  · intro id e hbarred he
    change Assoc.find (Assoc.set registry.byId entry.deviceId entry) id = some e at he
    rw [Assoc.find_set] at he
    split_ifs at he with heq
    · cases he
      exact hrevoked (heq ▸ hbarred)
    · exact h.revoked id e hbarred he

theorem RegistryInv.remove (h : RegistryInv Own barred registry) (id : String) :
    RegistryInv Own barred (registry.remove id) := by
  rw [Registry.remove]
  split
  · next entry hentry =>
    obtain ⟨-, -, hentryToken⟩ := h.entry id entry hentry
    refine ⟨?_, ?_, ?_⟩
    · intro id' e he
      change Assoc.find (Assoc.erase registry.byId id) id' = some e at he
      change _ ∧ _ ∧ Assoc.find (Assoc.erase registry.byToken entry.bearerToken) _ = _
      rw [Assoc.find_erase] at he ⊢
      split_ifs at he with heq
      obtain ⟨hid', hown', htok⟩ := h.entry id' e he
      refine ⟨hid', hown', ?_⟩
      rw [if_neg, htok]
      intro hsame
      rw [hsame, hentryToken] at htok
      exact heq (Option.some.inj htok).symm
    · intro token id' htok
      change Assoc.find (Assoc.erase registry.byToken entry.bearerToken) token = some id' at htok
      change ∃ e, Assoc.find (Assoc.erase registry.byId id) id' = some e ∧ _
      rw [Assoc.find_erase] at htok ⊢
      split_ifs at htok with heq
      obtain ⟨e, he, hetoken⟩ := h.token token id' htok
      refine ⟨e, ?_, hetoken⟩
      rw [if_neg, he]
      intro hsame
      rw [hsame, hentry] at he
      cases he
      exact heq hetoken.symm
    · intro id' e hbarred he
      change Assoc.find (Assoc.erase registry.byId id) id' = some e at he
      rw [Assoc.find_erase] at he
      split_ifs at he
      exact h.revoked id' e hbarred he
  · exact h

theorem RegistryInv.foldl_remove (h : RegistryInv Own barred registry) (ids : List String) :
    RegistryInv Own barred (ids.foldl Registry.remove registry) := by
  induction ids generalizing registry with
  | nil => exact h
  | cons id ids ih => exact ih (h.remove id)

theorem registryInv_empty : RegistryInv Own barred ⟨[], []⟩ :=
  ⟨fun _ _ h => (nomatch h), fun _ _ h => (nomatch h), fun _ _ _ h => (nomatch h)⟩

theorem diskInv_empty : DiskInv Own barred ⟨[], []⟩ :=
  ⟨fun _ _ h => (nomatch h), fun _ _ h => (nomatch h), fun _ _ h => (nomatch h)⟩

end Obsetync.Devices

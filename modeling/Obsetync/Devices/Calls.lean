import Obsetync.Devices.Invariants

namespace Obsetync.Devices
open Faults List

variable {Own : String → String → Prop} {barred : String → Prop} {P : Host → Prop}
  {name token deviceId : String} {info : DeviceInfo} {plans : Plan → Prop} {f : Disk → Disk}
  {publish : Folder → Folder}

theorem keeps_fileOp (hc : Closed plans) (h : ∀ host, P host → P { host with disk := f host.disk }) :
    Keeps plans P (fileOp f) :=
  Keeps.op hc h

theorem keeps_sideOp (hc : Closed plans) : Keeps plans P sideOp := keeps_fileOp hc fun _ h => h

theorem keeps_atomicWrite (hc : Closed plans)
    (hdir : ∀ host, P host → P { host with disk := host.disk.createDir name })
    (hpublish : ∀ host, P host → P { host with disk := host.disk.setFolder name publish }) :
    Keeps plans P (atomicWrite name publish) := by
  apply (keeps_fileOp hc hdir).bind
  intro _
  apply (keeps_sideOp hc).bind
  intro _
  apply (keeps_fileOp hc hpublish).bind
  intro _
  exact keeps_sideOp hc

theorem safe_atomicWrite (hc : Closed plans)
    (hdir : ∀ host, P host → P { host with disk := host.disk.createDir name })
    (hpublish : ∀ host, P host → (Assoc.find host.disk.folders name).isSome →
      Q { host with disk := host.disk.setFolder name publish }) (hQ : ∀ host, Q host → P host) :
    Safe plans P (atomicWrite name publish) (fun _ => Q) P := by
  have hcreate : Safe plans P (fileOp (·.createDir name))
      (fun _ host => P host ∧ (Assoc.find host.disk.folders name).isSome) P :=
    Safe.op hc (fun host hP => ⟨hdir host hP, Disk.find_createDir⟩) fun _ hP => hP
  apply hcreate.bind
  intro _
  have hstage : Safe plans (fun host => P host ∧ (Assoc.find host.disk.folders name).isSome)
      sideOp (fun _ host => P host ∧ (Assoc.find host.disk.folders name).isSome) P :=
    Safe.op hc (fun _ h => h) fun _ h => h.1
  apply hstage.bind
  intro _
  have hrename : Safe plans (fun host => P host ∧ (Assoc.find host.disk.folders name).isSome)
      (fileOp (·.setFolder name publish)) (fun _ => Q) P :=
    Safe.op hc (fun host h => hpublish host h.1 h.2) fun _ h => h.1
  apply hrename.bind
  intro _
  exact Safe.op hc (fun _ h => h) hQ

theorem keeps_atomicWriteToken (hc : Closed plans)
    (h : ∀ host, P host → P { host with disk := { host.disk with
      tokens := Assoc.set host.disk.tokens token ⟨deviceId, now⟩ } }) :
    Keeps plans P (atomicWriteToken token deviceId now) := by
  apply (keeps_sideOp hc).bind
  intro _
  apply (keeps_sideOp hc).bind
  intro _
  apply (keeps_fileOp hc h).bind
  intro _
  exact keeps_sideOp hc

theorem keeps_getDevice (hc : Closed plans) :
    Safe plans P (getDevice deviceId) (fun device host => P host ∧
      ∀ info ∈ device, host.disk.recordAt deviceId = some (.json info)) P := by
  apply Safe.bind (keeps_sideOp hc).attempt
  intro readable
  apply Safe.read.bind
  intro host
  split
  · next info hrecord =>
    apply Safe.pure
    rintro host' ⟨rfl, hP⟩
    refine ⟨hP, ?_⟩
    rintro info' ⟨⟩
    exact hrecord
  · apply Safe.pure
    rintro host' ⟨rfl, hP⟩
    exact ⟨hP, fun _ h => nomatch h⟩

/-- The invariant beside a fact about memory that file operations leave alone. -/
def InvWith (Own : String → String → Prop) (barred : String → Prop) (F : Disk → Registry → Prop)
    (host : Host) : Prop :=
  Inv Own barred host ∧ F host.disk host.registry

theorem keeps_persistDeviceInfo (hc : Closed plans) (hown : Own info.bearerToken info.deviceId)
    {F : Disk → Registry → Prop} (hmark : ∀ disk registry, F disk registry → barred info.deviceId →
      (disk.markerAt info.deviceId).isSome)
    (hdir : ∀ disk registry, F disk registry → F (disk.createDir info.deviceId) registry)
    (hrecord : ∀ disk registry, F disk registry → F (disk.setFolder info.deviceId fun folder =>
      { folder with record := some (.json info) }) registry) :
    Keeps plans (InvWith Own barred F) (persistDeviceInfo info) := by
  apply keeps_atomicWrite hc
  · rintro host ⟨hinv, hF⟩
    exact ⟨⟨hinv.disk.createDir, hinv.registry⟩, hdir _ _ hF⟩
  · rintro host ⟨hinv, hF⟩
    exact ⟨⟨hinv.disk.setRecord hown (hmark _ _ hF), hinv.registry⟩, hrecord _ _ hF⟩

theorem safe_persistRevocation (hc : Closed plans) (timestamp : Nat) :
    Safe plans (Inv Own barred) (persistRevocation deviceId timestamp)
      (fun _ host => Inv Own barred host ∧ (host.disk.markerAt deviceId).isSome)
      (Inv Own barred) := by
  apply Safe.read.bind
  intro host
  split
  · apply Safe.fail
    rintro host' ⟨rfl, hinv⟩
    exact hinv
  · have hwrite : Safe plans (Inv Own barred) (atomicWrite deviceId fun folder =>
        { folder with revoked := some (.stamp timestamp) })
        (fun _ host => Inv Own barred host ∧ (host.disk.markerAt deviceId).isSome)
        (Inv Own barred) := by
      apply safe_atomicWrite hc
      · intro host hinv
        exact ⟨hinv.disk.createDir, hinv.registry⟩
      · intro host hinv hfolder
        refine ⟨⟨hinv.disk.setMarker _, hinv.registry⟩, ?_⟩
        obtain ⟨folder, hfind⟩ := Option.isSome_iff_exists.1 hfolder
        rw [Disk.markerAt_setFolder, if_pos rfl, hfind]
        rfl
      · intro host hinv
        exact hinv.1
    apply Safe.bind (hwrite.pre fun _ h => h.2)
    intro _
    exact Safe.pure fun _ h => h

section Removal

/-- The record of a device goes before its marker. -/
def RecordFirst (rank : FileName → Nat) : Prop := rank .deviceJson < rank .revoked

variable {rank : FileName → Nat} {files : List FileName}

theorem Disk.recordAt_remove {disk : Disk} (other : String) :
    (disk.setFolder name (·.remove file)).recordAt other =
      if other = name ∧ file = .deviceJson then none else disk.recordAt other := by
  rw [Disk.recordAt_setFolder]
  by_cases h : other = name
  · rw [if_pos h, Disk.recordAt]
    cases file with
    | deviceJson =>
      rw [if_pos ⟨h, rfl⟩]
      cases Assoc.find disk.folders other <;> rfl
    | revoked => rw [if_neg (by rintro ⟨-, ⟨⟩⟩)]; rfl
    | other => rw [if_neg (by rintro ⟨-, ⟨⟩⟩)]; rfl
  · rw [if_neg h, if_neg fun hand => h hand.1]

theorem Disk.markerAt_remove {disk : Disk} (other : String) :
    (disk.setFolder name (·.remove file)).markerAt other =
      if other = name ∧ file = .revoked then none else disk.markerAt other := by
  rw [Disk.markerAt_setFolder]
  by_cases h : other = name
  · rw [if_pos h, Disk.markerAt]
    cases file with
    | revoked =>
      rw [if_pos ⟨h, rfl⟩]
      cases Assoc.find disk.folders other <;> rfl
    | deviceJson => rw [if_neg (by rintro ⟨-, ⟨⟩⟩)]; rfl
    | other => rw [if_neg (by rintro ⟨-, ⟨⟩⟩)]; rfl
  · rw [if_neg h, if_neg fun hand => h hand.1]

theorem DiskInv.removeFile {disk : Disk} (h : DiskInv Own barred disk)
    (hfile : barred name → file = .revoked → disk.recordAt name = none) :
    DiskInv Own barred (disk.setFolder name (·.remove file)) := by
  refine ⟨?_, h.token, ?_⟩
  · intro other info hrecord
    rw [Disk.recordAt_remove] at hrecord
    split_ifs at hrecord
    exact h.record other info hrecord
  · intro other hbarred hrecord
    rw [Disk.recordAt_remove] at hrecord
    split_ifs at hrecord with hjson
    · cases hrecord
    · rw [Disk.markerAt_remove, if_neg]
      · exact h.marked other hbarred hrecord
      · rintro ⟨rfl, hrevoked⟩
        rw [hfile hbarred hrevoked] at hrecord
        cases hrecord

theorem DiskInv.eraseFolder (h : DiskInv Own (fun id => barred id ∧ id ≠ name) disk) :
    DiskInv Own barred { disk with folders := Assoc.erase disk.folders name } := by
  have herase (other : String) : Assoc.find (Assoc.erase disk.folders name) other =
      if other = name then none else Assoc.find disk.folders other := Assoc.find_erase
  refine ⟨?_, h.token, ?_⟩
  · intro other info hrecord
    rw [Disk.recordAt, herase] at hrecord
    split_ifs at hrecord
    · cases hrecord
    · exact h.record other info hrecord
  · intro other hbarred hrecord
    rw [Disk.recordAt, herase] at hrecord
    rw [Disk.markerAt, herase]
    split_ifs at hrecord ⊢ with heq
    · cases hrecord
    · exact h.marked other ⟨hbarred, heq⟩ hrecord

theorem DiskInv.weaken (h : DiskInv Own barred disk) (hle : ∀ id, barred' id → barred id) :
    DiskInv Own barred' disk :=
  ⟨h.record, h.token, fun other hbarred => h.marked other (hle other hbarred)⟩

theorem safe_removeFiles (hc : Closed plans) (hrank : RecordFirst rank)
    (hsort : files.Pairwise fun a b => rank a ≤ rank b) :
    Safe plans (fun host => Inv Own barred host ∧
        ((host.disk.recordAt name).isSome → .deviceJson ∈ files))
      (removeFiles name files) (fun _ => Inv Own barred) (Inv Own barred) := by
  induction files with
  | nil => exact Safe.pure fun _ h => h.1
  | cons file files ih =>
    obtain ⟨hfirst, hrest⟩ := pairwise_cons.1 hsort
    have hstep : Safe plans (fun host => Inv Own barred host ∧
        ((host.disk.recordAt name).isSome → .deviceJson ∈ file :: files))
        (fileOp (·.setFolder name (·.remove file)))
        (fun _ host => Inv Own barred host ∧
          ((host.disk.recordAt name).isSome → .deviceJson ∈ files)) (Inv Own barred) := by
      apply Safe.op hc _ fun _ h => h.1
      rintro host ⟨hinv, hjson⟩
      refine ⟨⟨hinv.disk.removeFile ?_, hinv.registry⟩, ?_⟩
      · rintro - rfl
        by_contra hrecord
        rcases mem_cons.1 (hjson (Option.isSome_iff_ne_none.2 hrecord)) with heq | hmem
        · cases heq
        · exact absurd (hfirst _ hmem) (not_le.2 hrank)
      · intro hrecord
        change (Disk.recordAt (host.disk.setFolder name (·.remove file)) name).isSome at hrecord
        rw [Disk.recordAt_remove] at hrecord
        split_ifs at hrecord with hfile
        · cases hrecord
        · exact (mem_cons.1 (hjson hrecord)).resolve_left fun heq => hfile ⟨rfl, heq.symm⟩
    exact hstep.bind fun _ => ih hrest

theorem Safe.removeFiles
    (hstep : ∀ file, Safe plans P (fileOp (·.setFolder name (·.remove file))) (fun _ => P) R) :
    Safe plans P (removeFiles name files) (fun _ => P) R := by
  induction files with
  | nil => exact Safe.pure fun _ h => h
  | cons file files ih => exact (hstep file).bind fun _ => ih

/-- A removal that nothing interrupts, or that takes the record first, or that concerns nobody. -/
def SafeRemoval (plans : Plan → Prop) (barred : String → Prop) (rank : FileName → Nat) : Prop :=
  plans = (· = .none) ∨ RecordFirst rank ∨ ∀ id, ¬ barred id

theorem mem_files_of_recordAt {disk : Disk} (hfolder : Assoc.find disk.folders name = some folder)
    (h : (disk.recordAt name).isSome) : .deviceJson ∈ folder.files := by
  rw [Disk.recordAt, hfolder] at h
  change folder.record.isSome at h
  rw [Folder.files, if_pos h]
  exact mem_append_left _ (mem_append_left _ mem_cons_self)

theorem safe_removeDirAll (hc : Closed plans) (hremoval : SafeRemoval plans barred rank)
    (folder : Folder) : Safe plans (fun host => Inv Own barred host ∧
        Assoc.find host.disk.folders name = some folder)
      (removeDirAll name folder rank) (fun _ => Inv Own barred) (Inv Own barred) := by
  have herase (host : Host) (h : Inv Own barred host) : Inv Own barred { host with
      disk := { host.disk with folders := Assoc.erase host.disk.folders name } } :=
    ⟨(h.disk.weaken fun _ hand => hand.1).eraseFolder, h.registry⟩
  rcases hremoval with rfl | hrank | hnobody
  · apply Safe.bind ((Safe.removeFiles (P := fun host =>
      DiskInv Own (fun id => barred id ∧ id ≠ name) host.disk ∧ RegistryInv Own barred host.registry)
      fun file => Safe.op_none ?_).pre fun host h => ?_)
    · intro _
      apply Safe.op_none
      rintro host ⟨hdisk, hregistry⟩
      exact ⟨hdisk.eraseFolder, hregistry⟩
    · rintro host ⟨hdisk, hregistry⟩
      exact ⟨hdisk.removeFile fun hbarred => (hbarred.2 rfl).elim, hregistry⟩
    · exact ⟨h.1.disk.weaken fun _ hand => hand.1, h.1.registry⟩
  · apply Safe.bind ((safe_removeFiles hc hrank Keyed.sortBy_pairwise).pre fun host h => ?_)
    · intro _
      exact keeps_fileOp hc herase
    · refine ⟨h.1, fun hrecord => Keyed.sortBy_perm.mem_iff.2 (mem_files_of_recordAt h.2 hrecord)⟩
  · have hfiles (file : FileName) :
        Keeps plans (Inv Own barred) (fileOp (·.setFolder name (·.remove file))) :=
      keeps_fileOp hc fun host h => ⟨h.disk.removeFile fun hb => (hnobody _ hb).elim, h.registry⟩
    apply Safe.bind ((Safe.removeFiles hfiles).pre fun _ h => h.1)
    intro _
    exact keeps_fileOp hc herase

theorem keeps_removeToken (hc : Closed plans) (device : Option DeviceInfo) :
    Keeps plans (Inv Own barred) (removeToken device) := by
  cases device with
  | none => exact Safe.pure fun _ h => h
  | some info =>
    have herase : Keeps plans (Inv Own barred) (fileOp fun disk =>
        { disk with tokens := Assoc.erase disk.tokens info.bearerToken }) :=
      keeps_fileOp hc fun host hinv => ⟨hinv.disk.eraseToken, hinv.registry⟩
    apply herase.attempt.bind
    intro _
    apply (keeps_sideOp hc).attempt.bind
    intro _
    exact Safe.pure fun _ h => h

theorem keeps_deleteDevice (hc : Closed plans) (hremoval : SafeRemoval plans barred rank) :
    Keeps plans (Inv Own barred) (deleteDevice deviceId rank) := by
  apply Safe.bind (keeps_getDevice hc)
  intro device
  apply Safe.bind ((keeps_removeToken hc device).pre fun _ h => h.1)
  intro _
  apply Safe.read.bind
  intro host
  split
  · next folder hfolder =>
    apply Safe.bind ((safe_removeDirAll hc hremoval folder).pre fun host' h => ?_)
    · intro _
      exact keeps_sideOp hc
    · exact ⟨h.2, h.1 ▸ hfolder⟩
  · exact Safe.pure fun _ h => h.2

end Removal

theorem keeps_updateEntry {f : RegistryEntry → RegistryEntry}
    (hid : ∀ e, (f e).deviceId = e.deviceId) (htoken : ∀ e, (f e).bearerToken = e.bearerToken)
    (hrevoked : ∀ e, e.revoked = true → (f e).revoked = true) :
    Keeps plans (Inv Own barred) (updateEntry deviceId f) :=
  Safe.update fun _ hinv => ⟨hinv.disk, hinv.registry.adjust hid htoken hrevoked⟩

theorem keeps_ask : Keeps plans P (ask x) := by
  cases x with
  | ok a => exact Safe.pure fun _ h => h
  | error e => exact Safe.fail fun _ h => h

theorem keeps_persist_of_not_barred (hc : Closed plans) (hown : Own info.bearerToken info.deviceId)
    (hbarred : ¬ barred info.deviceId) : Keeps plans (Inv Own barred) (persistDeviceInfo info) :=
  (keeps_persistDeviceInfo (F := fun _ _ => True) hc hown (fun _ _ _ h => (hbarred h).elim)
    (fun _ _ h => h) fun _ _ h => h).weaken (fun _ h => ⟨h, trivial⟩) (fun _ _ h => h.1)
      fun _ h => h.1

theorem keeps_reportCapabilities (hc : Closed plans) (vaultId : Option String)
    (capabilities : List String) :
    Keeps plans (Inv Own barred) (reportCapabilities deviceId vaultId capabilities) := by
  apply keeps_ask.bind
  intro capabilities
  apply keeps_ask.bind
  intro vaultId
  apply Safe.read.bind
  intro host
  split
  · exact Safe.fail fun _ h => h.2
  · next entry hentry =>
    split_ifs with hrevoked
    · exact Safe.fail fun _ h => h.2
    · apply Safe.assume (p := RegistryInv Own barred host.registry)
      · rintro host' ⟨rfl, hinv⟩
        exact hinv.registry
      intro hregistry
      obtain ⟨hid, hown, -⟩ := hregistry.entry deviceId entry hentry
      have hbarred : ¬ barred deviceId := fun hb => hrevoked (hregistry.revoked deviceId entry hb hentry)
      subst hid
      have hpersist := (@keeps_persist_of_not_barred _ _ { entry.snapshot with
        vaults := vaultId.elim entry.vaults (addVault entry.vaults), capabilities }) hc hown hbarred
      apply Safe.bind (hpersist.pre fun _ h => h.2)
      intro _
      exact keeps_updateEntry (fun _ => rfl) (fun _ => rfl) fun _ h => h

theorem safe_revoke (hc : Closed plans) (now : Nat) :
    Safe plans (Inv Own barred) (revoke deviceId now)
      (fun _ => Inv Own fun id => barred id ∨ id = deviceId) (Inv Own barred) := by
  apply Safe.read.bind
  intro host
  split
  · exact Safe.fail fun _ h => h.2
  · apply Safe.bind ((safe_persistRevocation hc now).pre fun _ h => h.2)
    intro timestamp
    apply Safe.update
    rintro host' ⟨hinv, hmarker⟩
    have hregistry := (@RegistryInv.adjust _ _ _ hinv.registry deviceId)
      (f := fun entry => { entry with revokedAt := timestamp, revoked := true }) (fun _ => rfl)
      (fun _ => rfl) fun _ _ => rfl
    refine ⟨⟨hinv.disk.record, hinv.disk.token, ?_⟩, ⟨hregistry.entry, hregistry.token, ?_⟩⟩
    · rintro name (hbarred | rfl) hrecord
      · exact hinv.disk.marked name hbarred hrecord
      · exact hmarker
    · rintro id e (hbarred | rfl) he
      · exact hregistry.revoked id e hbarred he
      · change Assoc.find (Assoc.adjust _ id _) id = some e at he
        rw [Assoc.find_adjust, if_pos rfl] at he
        obtain ⟨e₀, -, rfl⟩ := Option.map_eq_some_iff.1 he
        rfl

/-- Every barred device that a flush would write has its marker on disk. -/
def FlushMarked (barred : String → Prop) (force : Bool) (now : Nat) (disk : Disk)
    (registry : Registry) : Prop :=
  ∀ id e, barred id → Assoc.find registry.byId id = some e → e.flushes force now = true →
    (disk.markerAt id).isSome

theorem keeps_flushEntry (hc : Closed plans) (force : Bool) (now : Nat) :
    Keeps plans (InvWith Own barred (FlushMarked barred force now))
      (flushEntry force now deviceId) := by
  apply Safe.read.bind
  intro host
  split
  · exact Safe.pure fun _ h => h.2
  · next entry hentry =>
    split_ifs with hflush
    · apply Safe.assume (p := RegistryInv Own barred host.registry)
      · rintro host' ⟨rfl, h⟩
        exact h.1.registry
      intro hregistry
      obtain ⟨hid, hown, -⟩ := hregistry.entry deviceId entry hentry
      subst hid
      have hpersist := (@keeps_persistDeviceInfo _ _ entry.snapshot)
        (F := fun disk registry => FlushMarked barred force now disk registry ∧
          Assoc.find registry.byId entry.deviceId = some entry) hc hown
        (fun disk registry h hb => h.1 _ entry hb h.2 hflush)
        (fun disk registry h => ⟨fun id e hb he hf => by
          rw [Disk.markerAt_createDir]; exact h.1 id e hb he hf, h.2⟩)
        (fun disk registry h => ⟨fun id e hb he hf => by
          have hsome := h.1 id e hb he hf
          rw [Disk.markerAt_setFolder]
          split_ifs <;> exact hsome, h.2⟩)
      apply Safe.bind (hpersist.weaken ?_ (fun _ _ h => h) fun host' h => ⟨h.1, h.2.1⟩)
      · intro _
        apply Safe.update
        rintro host' ⟨hinv, hmarked, hfind⟩
        refine ⟨⟨hinv.disk, hinv.registry.adjust (fun _ => rfl) (fun _ => rfl) fun _ h => h⟩, ?_⟩
        intro id e hb he hf
        change Assoc.find (Assoc.adjust _ entry.deviceId _) id = some e at he
        rw [Assoc.find_adjust] at he
        split_ifs at he with heq
        · subst heq
          exact hmarked _ entry hb hfind hflush
        · exact hmarked id e hb he hf
      · rintro host' ⟨rfl, hinv, hmarked⟩
        exact ⟨hinv, hmarked, hentry⟩
    · exact Safe.pure fun _ h => h.2

theorem keeps_flushLastSeen (hc : Closed plans) (force : Bool) (now : Nat) (order : List String) :
    Keeps plans (InvWith Own barred (FlushMarked barred force now)) (flushLastSeen force now order) := by
  induction order with
  | nil => exact Safe.pure fun _ h => h
  | cons id order ih => exact (keeps_flushEntry hc force now).bind fun _ => ih

theorem keeps_purgeLoop (hc : Closed plans) {rank : String → FileName → Nat}
    (hremoval : ∀ id, SafeRemoval plans barred (rank id)) (ttlMs now : Nat) (order : List String) :
    Keeps plans (Inv Own barred) (purgeLoop ttlMs now rank order) := by
  induction order with
  | nil => exact Safe.pure fun _ h => h
  | cons id order ih =>
    apply Safe.read.bind
    intro host
    have ih' : Safe plans (fun host' => host = host' ∧ Inv Own barred host')
        (purgeLoop ttlMs now rank order) (fun _ => Inv Own barred) (Inv Own barred) :=
      ih.pre fun _ h => h.2
    split
    · exact ih'
    · split_ifs
      · exact ih'
      · apply Safe.bind ((safe_persistRevocation hc now).weaken (fun _ h => h.2)
          (fun _ _ h => h.1) fun _ h => h)
        intro timestamp
        exact Safe.bind (keeps_updateEntry (fun _ => rfl) (fun _ => rfl) fun _ h => h) fun _ => ih
      · apply Safe.bind ((keeps_deleteDevice hc (hremoval id)).pre fun _ h => h.2)
        intro _
        apply ih.bind
        intro removed
        exact Safe.pure fun _ h => h
      · exact ih'

theorem keeps_purgeExpiredRevoked (hc : Closed plans)
    (hremoval : ∀ id, SafeRemoval plans barred (rank id)) (ttlSecs now : Nat)
    (order : List String) :
    Keeps plans (Inv Own barred) (purgeExpiredRevoked ttlSecs now rank order) := by
  apply (keeps_purgeLoop hc hremoval _ now order).bind
  intro removed
  exact Safe.update fun _ hinv => ⟨hinv.disk, hinv.registry.foldl_remove removed⟩

theorem safe_registerDevice (hc : Closed plans) (hown : Own token deviceId)
    (hbarred : ¬ barred deviceId) :
    Safe plans (fun host => Inv Own barred host ∧ host.registry = registry)
      (registerDevice deviceId name token now)
      (fun _ host => (Inv Own barred host ∧ host.registry = registry) ∧
        host.disk.recordAt deviceId = some (.json ⟨name, deviceId, now, now, [], [], token⟩))
      (Inv Own barred) := by
  have hdir (host : Host) (h : Inv Own barred host ∧ host.registry = registry) :
      Inv Own barred { host with disk := host.disk.createDir deviceId } ∧
        host.registry = registry :=
    ⟨⟨h.1.disk.createDir, h.1.registry⟩, h.2⟩
  apply Safe.bind (Q := fun _ host => Inv Own barred host ∧ host.registry = registry)
    ((keeps_fileOp hc hdir).onFail fun _ h => h.1)
  intro _
  apply Safe.bind ((keeps_sideOp hc).onFail fun _ h => h.1)
  intro _
  have htoken : Keeps plans (fun host => Inv Own barred host ∧ host.registry = registry)
      (atomicWriteToken token deviceId now) :=
    keeps_atomicWriteToken hc fun host h => ⟨⟨h.1.disk.setToken hown now, h.1.registry⟩, h.2⟩
  apply Safe.bind (htoken.onFail fun _ h => h.1)
  intro _
  apply Safe.bind ((keeps_sideOp hc).onFail fun _ h => h.1)
  intro _
  apply (safe_atomicWrite (P := fun host => Inv Own barred host ∧ host.registry = registry)
    (Q := fun host => (Inv Own barred host ∧ host.registry = registry) ∧
      host.disk.recordAt deviceId = some (.json ⟨name, deviceId, now, now, [], [], token⟩))
    hc hdir ?_ ?_).onFail fun _ h => h.1
  · intro host h hfolder
    obtain ⟨folder, hfind⟩ := Option.isSome_iff_exists.1 hfolder
    have hdisk := @DiskInv.setRecord _ _ _ ⟨name, deviceId, now, now, [], [], token⟩ h.1.disk hown
      fun hb => (hbarred hb).elim
    refine ⟨⟨⟨hdisk, h.1.registry⟩, h.2⟩, ?_⟩
    change Disk.recordAt (host.disk.setFolder deviceId _) deviceId = _
    rw [Disk.recordAt_setFolder, if_pos rfl, hfind]
    rfl
  · intro host h
    exact h.1

theorem keeps_register (hc : Closed plans) (hown : Own token device.id)
    (hbarred : ¬ barred device.id) :
    Keeps plans (Inv Own barred) (register device name token now) := by
  rw [register]
  split_ifs
  · exact Safe.fail fun _ h => h
  · apply Safe.read.bind
    intro host
    split
    · split_ifs
      · exact (keeps_atomicWriteToken hc fun host h =>
          ⟨h.disk.setToken hown now, h.registry⟩).pre fun _ h => h.2
      · exact Safe.fail fun _ h => h.2
    · next hid =>
      split_ifs with htoken
      · exact Safe.fail fun _ h => h.2
      · apply Safe.bind ((safe_registerDevice hc hown hbarred).weaken
          (fun host' h => ⟨h.2, congrArg Host.registry h.1.symm⟩) (fun _ _ h => h) fun _ h => h)
        intro _
        apply Safe.bind ((keeps_getDevice hc).onFail fun _ h => h.1.1)
        intro found
        cases found with
        | none => exact Safe.fail fun _ h => h.1.1.1
        | some info =>
          apply Safe.update
          rintro host' ⟨⟨⟨hinv, hregistry⟩, hrecord⟩, hfound⟩
          have heq := hfound info rfl
          rw [hrecord] at heq
          cases heq
          refine ⟨hinv.disk, hinv.registry.insert ?_ ?_ hown fun hb => (hbarred hb).elim⟩
          · rw [hregistry]
            exact hid
          · rw [hregistry]
            exact Option.not_isSome_iff_eq_none.1 htoken

end Obsetync.Devices

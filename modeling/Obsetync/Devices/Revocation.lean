import Obsetync.Devices.Calls

namespace Obsetync.Devices
open Faults List

variable {Own : String → String → Prop} {barred : String → Prop} {plans : Plan → Prop}

section Load

def Present (ids : List String) (disk : Disk) : Prop := ∀ id ∈ ids, (disk.recordAt id).isSome

def Loaded (Own : String → String → Prop) (disk : Disk) (info : DeviceInfo) : Prop :=
  Own info.bearerToken info.deviceId ∧ (disk.recordAt info.deviceId).isSome

variable {ids : List String} {directoryId : String}

theorem recordAt_setRecord_isSome {disk : Disk} {name id : String} {info : DeviceInfo}
    (h : (disk.recordAt id).isSome) : ((disk.setFolder name fun folder =>
      { folder with record := some (.json info) }).recordAt id).isSome := by
  rw [Disk.recordAt_setFolder]
  split_ifs
  · obtain ⟨record, hrecord⟩ := Option.isSome_iff_exists.1 h
    obtain ⟨folder, hfolder, -⟩ := Option.bind_eq_some_iff.1 hrecord
    rw [hfolder]
    rfl
  · exact h

theorem safe_recoverZeroLengthDevice (hc : Closed plans) :
    Safe plans (InvWith Own barred fun disk _ =>
        Present ids disk ∧ (disk.recordAt directoryId).isSome)
      (recoverZeroLengthDevice directoryId)
      (fun device host => InvWith Own barred (fun disk _ => Present ids disk) host ∧
        ∀ info ∈ device, Loaded Own host.disk info) (Inv Own barred) := by
  apply Safe.bind ((keeps_sideOp hc).onFail fun _ h => h.1)
  intro _
  apply Safe.read.bind
  intro host
  split
  · apply Safe.pure
    rintro host' ⟨rfl, hinv, hpresent, -⟩
    exact ⟨⟨hinv, hpresent⟩, fun _ h => nomatch h⟩
  · next token file htokens =>
    apply Safe.assume (p := Own token directoryId)
    · rintro host' ⟨rfl, hinv, -⟩
      have hmem : (token, file) ∈ tokensOf host.disk directoryId := by
        rw [htokens]
        exact mem_cons_self
      obtain ⟨hdisk, hvalid⟩ := mem_filter.1 (Keyed.sortBy_perm.mem_iff.1 hmem)
      have hid : file.deviceId = directoryId := by
        rw [Bool.and_eq_true] at hvalid
        exact of_decide_eq_true hvalid.2
      rw [← hid]
      exact hinv.disk.token token file hdisk
    intro hown
    have hpersist := (@keeps_persistDeviceInfo _ _ ⟨"Recovered device " ++ String.ofList (directoryId.toList.take 8), directoryId,
        file.modifiedMs, file.modifiedMs, [], [], token⟩)
      (F := fun disk _ => Present (directoryId :: ids) disk ∧
        (barred directoryId → (disk.markerAt directoryId).isSome)) hc hown
      (fun _ _ h => h.2)
      (fun _ _ h => by simpa only [Present, Disk.recordAt_createDir, Disk.markerAt_createDir] using h)
      (fun disk _ h => ⟨fun id hid => recordAt_setRecord_isSome (h.1 id hid), fun hb => by
        rw [Disk.markerAt_setFolder]
        split_ifs <;> exact h.2 hb⟩)
    apply Safe.bind (hpersist.weaken ?_ (fun _ _ h => h) fun _ h => h.1)
    · intro _
      apply Safe.pure
      rintro host' ⟨hinv, hpresent, -⟩
      refine ⟨⟨hinv, fun id hid => hpresent id (mem_cons_of_mem _ hid)⟩, ?_⟩
      rintro info ⟨⟩
      exact ⟨hown, hpresent _ mem_cons_self⟩
    · rintro host' ⟨rfl, hinv, hpresent, hrecord⟩
      exact ⟨hinv, forall_mem_cons.2 ⟨hrecord, hpresent⟩,
        fun hb => hinv.disk.marked directoryId hb hrecord⟩
  · exact Safe.fail fun _ h => h.2.1

theorem safe_loadDevice (hc : Closed plans) :
    Safe plans (InvWith Own barred fun disk _ => Present ids disk) (loadDevice directoryId)
      (fun device host => InvWith Own barred (fun disk _ => Present ids disk) host ∧
        ∀ info ∈ device, Loaded Own host.disk info) (Inv Own barred) := by
  apply Safe.bind ((keeps_sideOp hc).onFail fun _ h => h.1)
  intro _
  apply Safe.read.bind
  intro host
  split
  · apply Safe.pure
    rintro host' ⟨rfl, h⟩
    exact ⟨h, fun _ hno => nomatch hno⟩
  · exact Safe.fail fun _ h => h.2.1
  · next hempty =>
    apply (safe_recoverZeroLengthDevice hc).pre
    rintro host' ⟨rfl, hinv, hpresent⟩
    refine ⟨hinv, hpresent, ?_⟩
    rw [Disk.recordAt, hempty]
    rfl
  · next info hinfo =>
    split_ifs with hid
    · exact Safe.fail fun _ h => h.2.1
    · apply Safe.pure
      rintro host' ⟨rfl, hinv, hpresent⟩
      refine ⟨⟨hinv, hpresent⟩, ?_⟩
      rintro info' ⟨⟩
      have hid' : info.deviceId = directoryId := not_not.1 hid
      refine ⟨?_, ?_⟩
      · rw [hid']
        exact hinv.disk.record directoryId info hinfo hid'
      · rw [hid', Disk.recordAt, hinfo]
        rfl

theorem safe_loadDevicesStrict (hc : Closed plans) :
    Safe plans (InvWith Own barred fun disk _ => Present ids disk) (loadDevicesStrict names)
      (fun devices host => InvWith Own barred (fun disk _ => Present ids disk) host ∧
        ∀ info ∈ devices, Loaded Own host.disk info) (Inv Own barred) := by
  induction names generalizing ids with
  | nil => exact Safe.pure fun host h => ⟨h, fun _ hno => (not_mem_nil hno).elim⟩
  | cons name names ih =>
    rw [loadDevicesStrict]
    split_ifs
    · exact ih
    · apply Safe.bind (safe_loadDevice hc)
      intro device
      apply Safe.assume (p := ∀ info ∈ device, Own info.bearerToken info.deviceId)
      · intro host h info hinfo
        exact (h.2 info hinfo).1
      intro hown
      apply Safe.bind ((@ih (device.toList.map DeviceInfo.deviceId ++ ids)).pre ?_)
      · intro devices
        apply Safe.pure
        rintro host ⟨⟨hinv, hpresent⟩, hdevices⟩
        refine ⟨⟨hinv, fun id hid => hpresent id (mem_append_right _ hid)⟩, ?_⟩
        intro info hinfo
        rcases mem_append.1 hinfo with hmem | hmem
        · exact ⟨hown info (Option.mem_toList.1 hmem),
            hpresent _ (mem_append_left _ (mem_map_of_mem hmem))⟩
        · exact hdevices info hmem
      · rintro host ⟨⟨hinv, hpresent⟩, hloaded⟩
        refine ⟨hinv, ?_⟩
        intro id hid
        rcases mem_append.1 hid with hmem | hmem
        · obtain ⟨info, hinfo, rfl⟩ := mem_map.1 hmem
          exact (hloaded info (Option.mem_toList.1 hinfo)).2
        · exact hpresent id hmem

theorem safe_loadRevocationStrict (hc : Closed plans)
    (hP : ∀ host, P host → Inv Own barred host ∧ (host.disk.recordAt deviceId).isSome) :
    Safe plans P (loadRevocationStrict deviceId)
      (fun revoked host => P host ∧ (barred deviceId → revoked.isSome)) (Inv Own barred) := by
  apply Safe.bind ((keeps_sideOp hc).onFail fun _ h => (hP _ h).1)
  intro _
  apply Safe.read.bind
  intro host
  split
  · next hnone =>
    apply Safe.pure
    rintro host' ⟨rfl, h⟩
    refine ⟨h, fun hb => ?_⟩
    obtain ⟨hinv, hrecord⟩ := hP host h
    have hmarker := hinv.disk.marked deviceId hb hrecord
    rw [Disk.markerAt, hnone] at hmarker
    cases hmarker
  · exact Safe.pure fun _ h => ⟨h.2, fun _ => rfl⟩
  · exact Safe.pure fun _ h => ⟨h.2, fun _ => rfl⟩
  · exact Safe.fail fun _ h => (hP _ h.2).1

theorem safe_loadEntries (hc : Closed plans) (devices : List DeviceInfo) :
    Safe plans (InvWith Own barred fun disk _ => ∀ info ∈ devices, Loaded Own disk info)
      (loadEntries devices) (fun _ => Inv Own barred) (Inv Own barred) := by
  induction devices with
  | nil => exact Safe.pure fun _ h => h.1
  | cons info devices ih =>
    apply Safe.read.bind
    intro host
    split_ifs with hvalid hid htoken
    · exact Safe.fail fun _ h => h.2.1
    · exact Safe.fail fun _ h => h.2.1
    · exact Safe.fail fun _ h => h.2.1
    · apply Safe.bind (safe_loadRevocationStrict hc fun host' h =>
        ⟨h.2.1, (h.2.2 info mem_cons_self).2⟩)
      intro revoked
      apply Safe.bind (Safe.update _) fun _ => ih
      rintro host' ⟨⟨rfl, hinv, hloaded⟩, hrevoked⟩
      obtain ⟨⟨hown, -⟩, hrest⟩ := forall_mem_cons.1 hloaded
      refine ⟨⟨hinv.disk, hinv.registry.insert ?_ ?_ hown hrevoked⟩, hrest⟩
      · exact Option.not_isSome_iff_eq_none.1 hid
      · exact Option.not_isSome_iff_eq_none.1 htoken

theorem keeps_load (hc : Closed plans) : Keeps plans (Inv Own barred) load := by
  apply (keeps_sideOp hc).bind
  intro _
  apply Safe.read.bind
  intro host
  apply Safe.bind ((safe_loadDevicesStrict hc).pre
    fun _ h => ⟨h.2, fun _ hno => (not_mem_nil hno).elim⟩)
  intro devices
  exact (safe_loadEntries hc devices).pre fun _ h => ⟨h.1.1, h.2⟩

end Load

def Server.Inv (Own : String → String → Prop) (barred : String → Prop) (server : Server) : Prop :=
  DiskInv Own barred server.disk ∧ ∀ registry ∈ server.registry, RegistryInv Own barred registry

def Allowed (Own : String → String → Prop) (barred : String → Prop) (server : Server) :
    Event → Plan → Prop
  | .call (.register device _ token _), _ => Own token device.id ∧ ¬ barred device.id
  | .call (.flushLastSeen force now _), _ =>
    ∀ registry ∈ server.registry, FlushMarked barred force now server.disk registry
  | .call (.purgeExpiredRevoked _ _ rank _), plan =>
    plan = .none ∨ (∀ id, RecordFirst (rank id)) ∨ ∀ id, ¬ barred id
  | _, _ => True

variable {server : Server} {event : Event} {plan : Plan} {registry : Registry}

theorem Registry.authenticate_cases (registry : Registry) (token : String) (now : Nat) :
    (∃ e, registry.authenticate token now = (registry, .error e)) ∨
      ∃ id entry, Assoc.find registry.byToken token = some id ∧
        Assoc.find registry.byId id = some entry ∧ entry.revoked = false ∧
        registry.authenticate token now = ({ registry with
          byId := Assoc.set registry.byId entry.deviceId
            { entry with lastSeen := max entry.lastSeen now } }, .ok entry.deviceId) := by
  rw [Registry.authenticate]
  split_ifs
  · exact .inl ⟨_, rfl⟩
  · split
    · exact .inl ⟨_, rfl⟩
    · next entry hentry =>
      obtain ⟨id, hid, hfind⟩ := Option.bind_eq_some_iff.1 hentry
      split_ifs with hrevoked
      · exact .inl ⟨_, rfl⟩
      · exact .inr ⟨id, entry, hid, hfind, Bool.eq_false_iff.2 hrevoked, rfl⟩

theorem RegistryInv.authenticate (h : RegistryInv Own barred registry) (token : String)
    (now : Nat) : RegistryInv Own barred (registry.authenticate token now).1 := by
  rcases registry.authenticate_cases token now with ⟨e, heq⟩ | ⟨id, entry, -, hfind, -, heq⟩
  · rw [heq]
    exact h
  · rw [heq]
    have hadjust := (@RegistryInv.adjust _ _ _ h id)
      (f := fun entry => { entry with lastSeen := max entry.lastSeen now }) (fun _ => rfl)
      (fun _ => rfl) fun _ hr => hr
    rw [Assoc.adjust, hfind] at hadjust
    have hid := (h.entry id entry hfind).1
    subst hid
    exact hadjust

theorem keeps_authenticate : Keeps plans (Inv Own barred) (Call.run (.authenticate token now)) := by
  apply Safe.read.bind
  intro host
  apply Safe.bind (Q := fun _ => Inv Own barred) (Safe.update _)
  · intro _
    split <;> exact Safe.pure fun _ h => h
  · rintro host' ⟨rfl, hinv⟩
    exact ⟨hinv.disk, hinv.registry.authenticate token now⟩

theorem Call.run_inv (h : Inv Own barred ⟨server.disk, registry⟩)
    (hregistry : server.registry = some registry)
    (hallowed : Allowed Own barred server (.call call) plan) :
    Inv Own barred (call.run ⟨⟨server.disk, registry⟩, plan⟩).2.state := by
  cases call with
  | register device name token now =>
    exact ((keeps_register closed_true hallowed.1 hallowed.2).bind fun _ =>
      Safe.pure fun _ h => h).end_state trivial h
  | authenticate token now =>
    have hkeeps : Keeps (fun _ => True) (Inv Own barred) (Call.authenticate token now).run :=
      keeps_authenticate
    exact hkeeps.end_state trivial h
  | reportCapabilities deviceId vaultId capabilities =>
    exact ((keeps_reportCapabilities closed_true vaultId capabilities).bind fun _ =>
      Safe.pure fun _ h => h).end_state trivial h
  | flushLastSeen force now order =>
    exact (((keeps_flushLastSeen closed_true force now order).bind fun _ =>
      Safe.pure fun _ h => h).end_state trivial ⟨h, hallowed registry hregistry⟩).1
  | revoke deviceId now =>
    have hkeeps : Keeps (fun _ => True) (Inv Own barred) (Devices.revoke deviceId now) := by
      apply (safe_revoke closed_true now).weaken (fun _ h => h) _ fun _ h => h
      intro _ host hinv
      exact ⟨hinv.disk.weaken fun _ => .inl, hinv.registry.entry, hinv.registry.token,
        fun id e hb => hinv.registry.revoked id e (.inl hb)⟩
    exact (hkeeps.bind fun _ => Safe.pure fun _ h => h).end_state trivial h
  | purgeExpiredRevoked ttlSecs now rank order =>
    rcases hallowed with rfl | hremoval
    · exact ((keeps_purgeExpiredRevoked closed_none (fun _ => .inl rfl) ttlSecs now order).bind
        fun _ => Safe.pure fun _ h => h).end_state rfl h
    · have hrank (id : String) : SafeRemoval (fun _ => True) barred (rank id) :=
        .inr (hremoval.imp_left fun hall => hall id)
      exact ((keeps_purgeExpiredRevoked closed_true hrank ttlSecs now order).bind
        fun _ => Safe.pure fun _ h => h).end_state trivial h

theorem Server.step_call {disk : Disk} : Server.step ⟨disk, some registry⟩ (.call call) plan =
      if plan.survives then
        (⟨(call.run ⟨⟨disk, registry⟩, plan⟩).2.state.disk,
          some (call.run ⟨⟨disk, registry⟩, plan⟩).2.state.registry⟩,
          match (call.run ⟨⟨disk, registry⟩, plan⟩).1 with
          | .ok reply => reply
          | .error _ => .failed)
      else (⟨(call.run ⟨⟨disk, registry⟩, plan⟩).2.state.disk, none⟩, .none) :=
  rfl

theorem server_inv (h : Inv Own barred host) (running : Bool) :
    Server.Inv Own barred ⟨host.disk, if running then some host.registry else none⟩ := by
  refine ⟨h.disk, ?_⟩
  intro registry hregistry
  cases running with
  | false => cases hregistry
  | true =>
    cases hregistry
    exact h.registry

theorem Server.step_inv (h : server.Inv Own barred)
    (hallowed : Allowed Own barred server event plan) :
    (server.step event plan).1.Inv Own barred := by
  obtain ⟨disk, running⟩ := server
  cases event with
  | restart =>
    have hload := (keeps_load closed_true).end_state
      (w := ⟨⟨disk, ⟨[], []⟩⟩, plan⟩) trivial ⟨h.1, registryInv_empty⟩
    rw [Server.step]
    rcases hrun : load ⟨⟨disk, ⟨[], []⟩⟩, plan⟩ with ⟨e | u, world⟩ <;> rw [hrun] at hload
    · exact ⟨hload.disk, fun _ hno => nomatch hno⟩
    · exact server_inv hload _
  | call call =>
    cases running with
    | none => exact h
    | some registry =>
      have hrun := Call.run_inv ⟨h.1, h.2 registry rfl⟩ rfl hallowed
      rw [Server.step_call]
      split_ifs
      · exact server_inv hrun true
      · exact server_inv hrun false

def AllowedRun (Own : String → String → Prop) (barred : String → Prop) :
    Server → List (Event × Plan) → Prop
  | _, [] => True
  | server, (event, plan) :: rest =>
    Allowed Own barred server event plan ∧ AllowedRun Own barred (server.step event plan).1 rest

theorem Server.run_inv (h : server.Inv Own barred)
    (hallowed : AllowedRun Own barred server events) : (server.after events).Inv Own barred := by
  induction events generalizing server with
  | nil => exact h
  | cons event events ih => exact ih (Server.step_inv h hallowed.1) hallowed.2

theorem fresh_inv : Server.fresh.Inv Own barred := ⟨diskInv_empty, fun _ hno => nomatch hno⟩

theorem Server.step_revoke (h : server.Inv Own barred)
    (hdone : (server.step (.call (.revoke deviceId now)) plan).2 = .done) :
    (server.step (.call (.revoke deviceId now)) plan).1.Inv Own
      fun id => barred id ∨ id = deviceId := by
  obtain ⟨disk, running⟩ := server
  cases running with
  | none => cases hdone
  | some registry =>
    have hrevoke := (@safe_revoke _ _ deviceId)
      closed_true now ⟨⟨disk, registry⟩, plan⟩ trivial ⟨h.1, h.2 registry rfl⟩
    rw [Server.step_call] at hdone ⊢
    split_ifs at hdone ⊢
    rcases hrun : Devices.revoke deviceId now ⟨⟨disk, registry⟩, plan⟩ with ⟨e | u, world⟩
    · have hcall : Call.run (.revoke deviceId now) ⟨⟨disk, registry⟩, plan⟩ = (.error e, world) := by
        rw [Call.run, bind_apply, hrun]
      rw [hcall] at hdone
      cases hdone
    · have hcall : Call.run (.revoke deviceId now) ⟨⟨disk, registry⟩, plan⟩ =
          (.ok .done, world) := by
        rw [Call.run, bind_apply, hrun]
        rfl
      rw [hrun] at hrevoke
      rw [hcall]
      exact server_inv hrevoke.2 true

def Event.registers (deviceId : String) : Event → Prop
  | .call (.register device _ _ _) => device.id = deviceId
  | _ => False

/-- What makes revocations permanent: a token is registered for its own device only, a flush does
not write a revoked device without its marker, and an interrupted purge removes records first. -/
def Careful (owner : String → String) (server : Server) : Event → Plan → Prop
  | .call (.register device _ token _), _ => owner token = device.id
  | .call (.flushLastSeen force now _), _ => ∀ registry ∈ server.registry, ∀ id e,
    Assoc.find registry.byId id = some e → e.revoked = true → e.flushes force now = true →
      (server.disk.markerAt id).isSome
  | .call (.purgeExpiredRevoked _ _ rank _), plan => plan = .none ∨ ∀ id, RecordFirst (rank id)
  | _, _ => True

def CarefulRun (owner : String → String) : Server → List (Event × Plan) → Prop
  | _, [] => True
  | server, (event, plan) :: rest =>
    Careful owner server event plan ∧ CarefulRun owner (server.step event plan).1 rest

def Server.tokenOf (server : Server) (deviceId : String) : Option String := do
  let registry ← server.registry
  let entry ← Assoc.find registry.byId deviceId
  return entry.bearerToken

def Server.authenticates (server : Server) (token : String) (now : Nat) : Option String :=
  match (server.step (.call (.authenticate token now)) .none).2 with
  | .authenticated deviceId => some deviceId
  | _ => none

theorem Careful.allowed (h : Careful owner server event plan)
    (hinv : server.Inv (fun token id => owner token = id) barred)
    (hnew : ∀ id, barred id → ¬ event.registers id) :
    Allowed (fun token id => owner token = id) barred server event plan := by
  cases event with
  | restart => trivial
  | call call =>
    cases call with
    | register device name token now => exact ⟨h, fun hb => hnew device.id hb rfl⟩
    | flushLastSeen force now order =>
      intro registry hregistry id e hb he hf
      exact h registry hregistry id e he ((hinv.2 registry hregistry).revoked id e hb he) hf
    | purgeExpiredRevoked ttlSecs now rank order => exact h.imp_right .inl
    | authenticate => trivial
    | reportCapabilities => trivial
    | revoke => trivial

theorem CarefulRun.inv {owner : String → String} {events : List (Event × Plan)}
    (h : CarefulRun owner server events)
    (hinv : server.Inv (fun token id => owner token = id) barred)
    (hnew : ∀ id, barred id → ∀ event ∈ events, ¬ event.1.registers id) :
    (server.after events).Inv (fun token id => owner token = id) barred := by
  induction events generalizing server with
  | nil => exact hinv
  | cons event events ih =>
    have hallowed := Careful.allowed h.1 hinv fun id hb => hnew id hb event mem_cons_self
    exact ih h.2 (Server.step_inv hinv hallowed) fun id hb event' hmem =>
      hnew id hb event' (mem_cons_of_mem _ hmem)

theorem CarefulRun.append {owner : String → String} {before after : List (Event × Plan)}
    (h : CarefulRun owner server (before ++ after)) :
    CarefulRun owner server before ∧ CarefulRun owner (server.after before) after := by
  induction before generalizing server with
  | nil => exact ⟨trivial, h⟩
  | cons event before ih =>
    obtain ⟨hbefore, hafter⟩ := ih h.2
    exact ⟨⟨h.1, hbefore⟩, hafter⟩

theorem Server.authenticates_eq (disk : Disk) (registry : Registry) (token : String) (now : Nat) :
    Server.authenticates ⟨disk, some registry⟩ token now =
      (registry.authenticate token now).2.toOption := by
  simp only [Server.authenticates, Server.step_call, Plan.survives, if_true, Call.run, bind_apply,
    Faults.read, update]
  cases (registry.authenticate token now).2 <;> rfl

theorem Server.authenticates_eq_some (h : server.authenticates token now = some deviceId) :
    ∃ registry id e, server.registry = some registry ∧ Assoc.find registry.byToken token = some id ∧
      Assoc.find registry.byId id = some e ∧ e.revoked = false ∧ e.deviceId = deviceId := by
  obtain ⟨disk, running⟩ := server
  cases running with
  | none => cases h
  | some registry =>
    rw [Server.authenticates_eq] at h
    rcases registry.authenticate_cases token now with ⟨e, heq⟩ | ⟨id, entry, hid, hfind, hrev, heq⟩
    · rw [heq] at h
      cases h
    · rw [heq] at h
      exact ⟨registry, id, entry, rfl, hid, hfind, hrev, Option.some.inj h⟩

theorem Server.tokenOf_eq_some :
    server.tokenOf deviceId = some token ↔ ∃ registry e, server.registry = some registry ∧
      Assoc.find registry.byId deviceId = some e ∧ e.bearerToken = token := by
  rw [Server.tokenOf]
  simp [Option.bind_eq_some_iff]

theorem allowedRun_of_nobody (server : Server) (events : List (Event × Plan)) :
    AllowedRun (fun _ _ => True) (fun _ => False) server events := by
  induction events generalizing server with
  | nil => trivial
  | cons event events ih =>
    refine ⟨?_, ih _⟩
    obtain ⟨event, plan⟩ := event
    cases event with
    | restart => trivial
    | call call =>
      cases call with
      | register => exact ⟨trivial, id⟩
      | flushLastSeen => exact fun _ _ _ _ hno => hno.elim
      | purgeExpiredRevoked => exact .inr (.inr fun _ => id)
      | authenticate => trivial
      | reportCapabilities => trivial
      | revoke => trivial

theorem Server.authenticates_owner (hinv : server.Inv Own barred)
    (h : server.authenticates token now = some deviceId) (other : String) :
    server.tokenOf other = some token ↔ other = deviceId := by
  obtain ⟨registry, id, e, hregistry, hid, hfind, -, rfl⟩ := Server.authenticates_eq_some h
  have hmaps := hinv.2 registry hregistry
  obtain ⟨e', hfind', htoken⟩ := hmaps.token token id hid
  rw [hfind] at hfind'
  cases hfind'
  rw [(hmaps.entry id e hfind).1, Server.tokenOf_eq_some]
  constructor
  · rintro ⟨registry', e', hregistry', hother, htoken'⟩
    rw [hregistry] at hregistry'
    cases hregistry'
    have hby := (hmaps.entry other e' hother).2.2
    rw [htoken', hid] at hby
    exact (Option.some.inj hby).symm
  · rintro rfl
    exact ⟨registry, e, hregistry, hfind, htoken⟩

/-- In a careful run, the token of a device that was revoked authenticates nobody until the device is
registered anew. In any run, a token authenticates only the one device that has it. -/
theorem revocation_permanent (owner : String → String) (before after : List (Event × Plan))
    (deviceId token : String) (now : Nat) (plan : Plan) (hcareful : CarefulRun owner .fresh
      (before ++ (.call (.revoke deviceId now), plan) :: after))
    (htoken : (Server.fresh.after before).tokenOf deviceId = some token)
    (hrevoked : ((Server.fresh.after before).step (.call (.revoke deviceId now)) plan).2 = .done)
    (hnew : ∀ event ∈ after, ¬ event.1.registers deviceId) :
    (∀ later, (Server.fresh.after (before ++ (.call (.revoke deviceId now), plan) :: after)
      ).authenticates token later = none) ∧
    ∀ (events : List (Event × Plan)) (token id : String) (time : Nat),
      (Server.fresh.after events).authenticates token time = some id →
        ∀ other, (Server.fresh.after events).tokenOf other = some token ↔ other = id := by
  constructor
  · obtain ⟨hbefore, -, hafter⟩ := CarefulRun.append hcareful
    have hinv := @CarefulRun.inv (fun _ => False) _ _ _ hbefore fresh_inv fun _ hno => hno.elim
    have hbarred := hafter.inv (Server.step_revoke hinv hrevoked) (by
      rintro id (hno | rfl)
      · exact hno.elim
      · exact hnew)
    have howner : owner token = deviceId := by
      obtain ⟨registry, e, hregistry, he, rfl⟩ := Server.tokenOf_eq_some.1 htoken
      exact ((hinv.2 registry hregistry).entry deviceId e he).2.1
    have hsplit : Server.fresh.after (before ++ (.call (.revoke deviceId now), plan) :: after) =
        Server.after (((Server.fresh.after before).step (.call (.revoke deviceId now)) plan).1)
          after := by
      rw [Server.after, foldl_append]
      rfl
    intro later
    rw [hsplit]
    cases hauth : Server.authenticates _ token later with
    | none => rfl
    | some id =>
      obtain ⟨registry, id, e, hregistry, hid, hfind, hrev, -⟩ := Server.authenticates_eq_some hauth
      have hmaps := hbarred.2 registry hregistry
      obtain ⟨e', hfind', htoken'⟩ := hmaps.token token id hid
      rw [hfind] at hfind'
      cases hfind'
      have hown : owner token = id := htoken' ▸ (hmaps.entry id e hfind).2.1
      have htrue := hmaps.revoked id e (.inr (hown.symm.trans howner)) hfind
      rw [hrev] at htrue
      cases htrue
  · intro events token id time hauth
    exact Server.authenticates_owner
      (Server.run_inv fresh_inv (allowedRun_of_nobody .fresh events)) hauth

def phone : Device := ⟨List.replicate 16 0, rfl⟩

def phoneToken : String := String.ofList (List.replicate 64 'a')

def registered : List (Event × Plan) :=
  [(.restart, .none), (.call (.register phone "phone" phoneToken 1), .none)]

theorem revocation_permanent_phone :
    (Server.fresh.after (registered ++ (.call (.revoke phone.id 2), .none) ::
      [(.call (.purgeExpiredRevoked 0 3 (fun _ _ => 0) [phone.id]), .none), (.restart, .none)])
      ).authenticates phoneToken 4 = none :=
  (revocation_permanent (fun _ => phone.id) registered
    [(.call (.purgeExpiredRevoked 0 3 (fun _ _ => 0) [phone.id]), .none), (.restart, .none)]
    phone.id phoneToken 2 .none ⟨trivial, rfl, trivial, .inl rfl, trivial, trivial⟩
    (by decide +kernel) (by decide +kernel) (by
      intro event hevent
      rcases mem_pair.1 hevent with rfl | rfl <;> exact id)).1 4

/-- A listing of a device folder with the marker of the revocation in front. -/
def markerFirst (_ : String) (file : FileName) : Nat := if file = .revoked then 0 else 1

def crashedPurge : List (Event × Plan) :=
  [(.call (.purgeExpiredRevoked 0 3 markerFirst [phone.id]), .crash 4), (.restart, .none)]

/-- The purge removes the folder and fails after that, so that the entry stays in memory and the
next flush writes the record again. -/
def flushedAgain : List (Event × Plan) :=
  [(.call (.purgeExpiredRevoked 0 7 markerFirst [phone.id]), .error 6),
    (.call (.flushLastSeen true 8 [phone.id]), .none), (.restart, .none)]

theorem revoked_device_returns :
    (((Server.fresh.after registered).step (.call (.revoke phone.id 2)) .none).2 = .done ∧
      (Server.fresh.after (registered ++ (.call (.revoke phone.id 2), .none) :: crashedPurge)
        ).authenticates phoneToken 4 = some phone.id) ∧
    (((Server.fresh.after (registered ++ [(.call (.authenticate phoneToken 5), .none)])).step
        (.call (.revoke phone.id 6)) .none).2 = .done ∧
      (Server.fresh.after (registered ++ (.call (.authenticate phoneToken 5), .none) ::
        (.call (.revoke phone.id 6), .none) :: flushedAgain)).authenticates phoneToken 9 =
          some phone.id) := by
  decide +kernel

end Obsetync.Devices

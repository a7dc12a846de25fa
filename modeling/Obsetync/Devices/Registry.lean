import Obsetync.Assoc
import Obsetync.Faults
import Obsetync.Keyed
import Obsetync.StorageLayout

namespace Obsetync.Devices
open Faults

structure DeviceInfo where
  name : String
  deviceId : String
  enrolledAt : Nat
  lastSeen : Nat
  vaults : List String
  capabilities : List String
  bearerToken : String
  deriving DecidableEq

/-- What `device.json` can hold. -/
inductive Record
  | empty
  | json (info : DeviceInfo)
  | malformed
  deriving DecidableEq

/-- What a `revoked` marker can hold: nothing but blanks, a number, or something else. -/
inductive Marker
  | blank
  | stamp (ms : Nat)
  | malformed
  deriving DecidableEq

/-- A directory of `devices`, which is named after the id of an enrolled device. -/
structure Folder where
  record : Option Record
  revoked : Option Marker
  others : List String
  deriving DecidableEq

inductive FileName
  | deviceJson
  | revoked
  | other (name : String)
  deriving DecidableEq

def Folder.files (folder : Folder) : List FileName :=
  (if folder.record.isSome then [.deviceJson] else []) ++
    (if folder.revoked.isSome then [.revoked] else []) ++ folder.others.map .other

def Folder.remove (folder : Folder) : FileName → Folder
  | .deviceJson => { folder with record := none }
  | .revoked => { folder with revoked := none }
  | .other name => { folder with others := folder.others.filter (· ≠ name) }

/-- A file of the token index: it is named after a token and holds the id of its device. -/
structure TokenFile where
  deviceId : String
  modifiedMs : Nat
  deriving DecidableEq

structure Disk where
  folders : List (String × Folder)
  tokens : List (String × TokenFile)
  deriving DecidableEq

structure RegistryEntry where
  name : String
  deviceId : String
  enrolledAt : Nat
  vaults : List String
  capabilities : List String
  bearerToken : String
  lastSeen : Nat
  persistedLastSeen : Nat
  revoked : Bool
  revokedAt : Nat
  deriving DecidableEq

def RegistryEntry.fromDisk (info : DeviceInfo) (revokedAt : Option Nat) : RegistryEntry where
  name := info.name
  deviceId := info.deviceId
  enrolledAt := info.enrolledAt
  vaults := info.vaults
  capabilities := info.capabilities
  bearerToken := info.bearerToken
  lastSeen := info.lastSeen
  persistedLastSeen := info.lastSeen
  revoked := revokedAt.isSome
  revokedAt := revokedAt.getD 0

def RegistryEntry.snapshot (entry : RegistryEntry) : DeviceInfo where
  name := entry.name
  deviceId := entry.deviceId
  enrolledAt := entry.enrolledAt
  lastSeen := entry.lastSeen
  vaults := entry.vaults
  capabilities := entry.capabilities
  bearerToken := entry.bearerToken

/-- The two maps of the registry. They share their entries, so a token leads to the id of one. -/
structure Registry where
  byToken : List (String × String)
  byId : List (String × RegistryEntry)
  deriving DecidableEq

def Registry.insert (registry : Registry) (entry : RegistryEntry) : Registry :=
  ⟨Assoc.set registry.byToken entry.bearerToken entry.deviceId,
    Assoc.set registry.byId entry.deviceId entry⟩

/-- `maps.by_id.remove`, then `maps.by_token.remove`. -/
def Registry.remove (registry : Registry) (deviceId : String) : Registry :=
  match Assoc.find registry.byId deviceId with
  | some entry =>
    ⟨Assoc.erase registry.byToken entry.bearerToken, Assoc.erase registry.byId deviceId⟩
  | none => registry

structure Host where
  disk : Disk
  registry : Registry

inductive Failure
  | io
  | invalidInput (message : String)
  | invalidData (message : String)
  | alreadyExists (message : String)
  | notFound (message : String)
  | permissionDenied (message : String)
  | other (message : String)
  deriving DecidableEq

abbrev HostM := M Failure Host

section Files

def fileOp (f : Disk → Disk) : HostM Unit := op .io fun host => { host with disk := f host.disk }

/-- An operation that creates, writes or syncs a file nobody reads. -/
def sideOp : HostM Unit := fileOp id

def Disk.createDir (disk : Disk) (name : String) : Disk :=
  match Assoc.find disk.folders name with
  | some _ => disk
  | none => { disk with folders := Assoc.set disk.folders name ⟨none, none, []⟩ }

def Disk.setFolder (disk : Disk) (name : String) (f : Folder → Folder) : Disk :=
  { disk with folders := Assoc.adjust disk.folders name f }

/-- `atomic_write` into a device directory: create it, stage the file, rename it, sync. -/
def atomicWrite (name : String) (publish : Folder → Folder) : HostM Unit := do
  fileOp (·.createDir name)
  sideOp
  fileOp (·.setFolder name publish)
  sideOp

def atomicWriteToken (token deviceId : String) (now : Nat) : HostM Unit := do
  sideOp
  sideOp
  fileOp fun disk => { disk with tokens := Assoc.set disk.tokens token ⟨deviceId, now⟩ }
  sideOp

def persistDeviceInfo (info : DeviceInfo) : HostM Unit :=
  atomicWrite info.deviceId fun folder => { folder with record := some (.json info) }

def persistRevocation (deviceId : String) (timestamp : Nat) : HostM Nat := do
  let host ← read
  match Assoc.find host.disk.folders deviceId with
  | none => fail (.notFound "device not found")
  | some _ =>
    atomicWrite deviceId fun folder => { folder with revoked := some (.stamp timestamp) }
    pure timestamp

/-- `get_device`: whatever goes wrong, there is no device. -/
def getDevice (deviceId : String) : HostM (Option DeviceInfo) := do
  let readable ← attempt sideOp
  let host ← read
  match readable, (Assoc.find host.disk.folders deviceId).bind Folder.record with
  | some _, some (.json info) => pure (some info)
  | _, _ => pure none

def removeFiles (name : String) : List FileName → HostM Unit
  | [] => pure ()
  | file :: files => do
    fileOp (·.setFolder name (·.remove file))
    removeFiles name files

/-- `remove_dir_all`: the files go in the order of their rank, then the directory. -/
def removeDirAll (name : String) (folder : Folder) (rank : FileName → Nat) : HostM Unit := do
  removeFiles name (Keyed.sortBy rank folder.files)
  fileOp fun disk => { disk with folders := Assoc.erase disk.folders name }

/-- The token of a deleted device is removed first; errors are ignored. -/
def removeToken : Option DeviceInfo → HostM Unit
  | some info => do
    let _ ← attempt (fileOp fun disk =>
      { disk with tokens := Assoc.erase disk.tokens info.bearerToken })
    let _ ← attempt sideOp
    pure ()
  | none => pure ()

def deleteDevice (deviceId : String) (rank : FileName → Nat) : HostM Unit := do
  let device ← getDevice deviceId
  removeToken device
  let host ← read
  match Assoc.find host.disk.folders deviceId with
  | some folder =>
    removeDirAll deviceId folder rank
    sideOp
  | none => pure ()

end Files

def isHexByte (b : UInt8) : Bool :=
  48 ≤ b && b ≤ 57 || 65 ≤ b && b ≤ 70 || 97 ≤ b && b ≤ 102

def validToken (token : String) : Bool :=
  token.utf8ByteSize = 64 && (asBytes token).all isHexByte

inductive AuthenticationError
  | unknown
  | revoked
  deriving DecidableEq

def Registry.authenticate (registry : Registry) (token : String) (now : Nat) :
    Registry × Except AuthenticationError String :=
  if !validToken token then (registry, .error .unknown)
  else
    match (Assoc.find registry.byToken token).bind (Assoc.find registry.byId) with
    | none => (registry, .error .unknown)
    | some entry =>
      if entry.revoked then (registry, .error .revoked)
      else
        let touched := { entry with lastSeen := max entry.lastSeen now }
        ({ registry with byId := Assoc.set registry.byId entry.deviceId touched },
          .ok entry.deviceId)

def registerDevice (deviceId name token : String) (now : Nat) : HostM Unit := do
  fileOp (·.createDir deviceId)
  sideOp
  atomicWriteToken token deviceId now
  sideOp
  persistDeviceInfo ⟨name, deviceId, now, now, [], [], token⟩

def register (device : Device) (name token : String) (now : Nat) : HostM Unit := do
  if !validToken token then fail (.invalidInput "invalid bearer token")
  else
    let host ← read
    match Assoc.find host.registry.byId device.id with
    | some existing =>
      if existing.name = name && existing.bearerToken = token && !existing.revoked then
        atomicWriteToken token device.id now
      else fail (.alreadyExists "device id already exists with different metadata")
    | none =>
      if (Assoc.find host.registry.byToken token).isSome then
        fail (.alreadyExists "bearer token already belongs to another device")
      else
        registerDevice device.id name token now
        let device ← getDevice device.id
        match device with
        | some info => update fun host =>
            { host with registry := host.registry.insert (.fromDisk info none) }
        | none => fail (.other "registered device could not be reloaded")

def updateEntry (deviceId : String) (f : RegistryEntry → RegistryEntry) : HostM Unit :=
  update fun host => { host with
    registry := { host.registry with byId := Assoc.adjust host.registry.byId deviceId f } }

def maxCapabilities : Nat := 32
def maxCapabilityLen : Nat := 64
def maxVaultIdLen : Nat := 1024

def toAsciiLowercase (s : String) : String :=
  String.ofList (s.toList.map fun c => if 'A' ≤ c && c ≤ 'Z' then Char.ofNat (c.toNat + 32) else c)

def normalizeCapabilities (capabilities : List String) : Except Failure (List String) :=
  if maxCapabilities < capabilities.length then
    .error (.invalidInput "too many device capabilities")
  else if capabilities.any fun c => c.isEmpty || maxCapabilityLen < c.utf8ByteSize ||
      !(asBytes c).all isSafeByte then
    .error (.invalidInput "invalid device capability")
  else .ok (Keyed.sortBy id (capabilities.map toAsciiLowercase)).dedup

def validateVaultId (vaultId : String) : Except Failure String :=
  if vaultId.isEmpty || maxVaultIdLen < vaultId.utf8ByteSize ||
      (asBytes vaultId).any fun b => b < 32 || b = 127 then
    .error (.invalidInput "invalid vault id")
  else .ok vaultId

def ask (x : Except Failure α) : HostM α :=
  match x with
  | .ok a => pure a
  | .error e => fail e

def addVault (vaults : List String) (vaultId : String) : List String :=
  if vaults.contains vaultId then vaults else Keyed.sortBy id (vaults ++ [vaultId])

def reportCapabilities (deviceId : String) (vaultId : Option String) (capabilities : List String) :
    HostM Unit := do
  let capabilities ← ask (normalizeCapabilities capabilities)
  let vaultId ← ask (vaultId.mapM validateVaultId)
  let host ← read
  match Assoc.find host.registry.byId deviceId with
  | none => fail (.notFound "device not found")
  | some entry =>
    if entry.revoked then fail (.permissionDenied "device revoked")
    else
      let vaults := vaultId.elim entry.vaults (addVault entry.vaults)
      persistDeviceInfo { entry.snapshot with vaults, capabilities }
      updateEntry deviceId fun entry => { entry with vaults, capabilities }

def revoke (deviceId : String) (now : Nat) : HostM Unit := do
  let host ← read
  match Assoc.find host.registry.byId deviceId with
  | none => fail (.notFound "device not found")
  | some _ =>
    let timestamp ← persistRevocation deviceId now
    updateEntry deviceId fun entry => { entry with revokedAt := timestamp, revoked := true }

def touchThrottleMs : Nat := 30000

/-- Whether the flush writes the entry. -/
def RegistryEntry.flushes (entry : RegistryEntry) (force : Bool) (now : Nat) : Bool :=
  entry.persistedLastSeen < entry.lastSeen &&
    (force || touchThrottleMs ≤ now - entry.persistedLastSeen)

def flushEntry (force : Bool) (now : Nat) (deviceId : String) : HostM Unit := do
  let host ← read
  match Assoc.find host.registry.byId deviceId with
  | none => pure ()
  | some entry =>
    if entry.flushes force now then
      persistDeviceInfo entry.snapshot
      updateEntry deviceId fun current => { current with persistedLastSeen := entry.lastSeen }
    else pure ()

/-- The loop of `flush_last_seen`, in the order the map gives its entries. -/
def flushLastSeen (force : Bool) (now : Nat) : List String → HostM Unit
  | [] => pure ()
  | deviceId :: rest => do
    flushEntry force now deviceId
    flushLastSeen force now rest

/-- The loop of `purge_expired_revoked`: the ids of the deleted devices. -/
def purgeLoop (ttlMs now : Nat) (rank : String → FileName → Nat) : List String → HostM (List String)
  | [] => pure []
  | deviceId :: rest => do
    let host ← read
    match Assoc.find host.registry.byId deviceId with
    | none => purgeLoop ttlMs now rank rest
    | some entry =>
      if !entry.revoked then purgeLoop ttlMs now rank rest
      else if entry.revokedAt = 0 then
        let timestamp ← persistRevocation deviceId now
        updateEntry deviceId fun entry => { entry with revokedAt := timestamp }
        purgeLoop ttlMs now rank rest
      else if ttlMs ≤ now - entry.revokedAt then
        deleteDevice deviceId (rank deviceId)
        let removed ← purgeLoop ttlMs now rank rest
        pure (deviceId :: removed)
      else purgeLoop ttlMs now rank rest

def purgeExpiredRevoked (ttlSecs now : Nat) (rank : String → FileName → Nat)
    (order : List String) : HostM Unit := do
  let removed ← purgeLoop (min (2 ^ 64 - 1) (ttlSecs * 1000)) now rank order
  update fun host => { host with registry := removed.foldl Registry.remove host.registry }

section Load

/-- The tokens whose index file points at the directory, in order. -/
def tokensOf (disk : Disk) (directoryId : String) : List (String × TokenFile) :=
  Keyed.sortBy Prod.fst
    (disk.tokens.filter fun (token, file) => validToken token && file.deviceId = directoryId)

def recoverZeroLengthDevice (directoryId : String) : HostM (Option DeviceInfo) := do
  sideOp
  let host ← read
  match tokensOf host.disk directoryId with
  | [] => pure none
  | [(token, file)] =>
    let info : DeviceInfo :=
      ⟨"Recovered device " ++ String.ofList (directoryId.toList.take 8), directoryId,
        file.modifiedMs, file.modifiedMs, [], [], token⟩
    persistDeviceInfo info
    pure (some info)
  | _ :: _ :: _ =>
    fail (.invalidData ("device " ++ directoryId ++ " has multiple token index entries"))

def loadDevice (directoryId : String) : HostM (Option DeviceInfo) := do
  sideOp
  let host ← read
  match (Assoc.find host.disk.folders directoryId).bind Folder.record with
  | none => pure none
  | some .malformed => fail (.invalidData "parse device metadata")
  | some .empty => recoverZeroLengthDevice directoryId
  | some (.json info) =>
    if info.deviceId ≠ directoryId then
      fail (.invalidData "device metadata id does not match directory")
    else pure (some info)

def loadDevicesStrict : List String → HostM (List DeviceInfo)
  | [] => pure []
  | directoryId :: rest => do
    if directoryId = tokensName then loadDevicesStrict rest
    else
      let device ← loadDevice directoryId
      let devices ← loadDevicesStrict rest
      pure (device.toList ++ devices)

def loadRevocationStrict (deviceId : String) : HostM (Option Nat) := do
  sideOp
  let host ← read
  match (Assoc.find host.disk.folders deviceId).bind Folder.revoked with
  | none => pure none
  | some .blank => pure (some 0)
  | some (.stamp ms) => pure (some ms)
  | some .malformed => fail (.invalidData "parse revocation marker")

def loadEntries : List DeviceInfo → HostM Unit
  | [] => pure ()
  | info :: rest => do
    let host ← read
    if !validToken info.bearerToken then
      fail (.invalidData ("device " ++ info.deviceId ++ " has an invalid bearer token"))
    else if (Assoc.find host.registry.byId info.deviceId).isSome then
      fail (.invalidData ("duplicate device id " ++ info.deviceId))
    else if (Assoc.find host.registry.byToken info.bearerToken).isSome then
      fail (.invalidData "duplicate bearer token in device registry")
    else
      let revoked ← loadRevocationStrict info.deviceId
      update fun host => { host with registry := host.registry.insert (.fromDisk info revoked) }
      loadEntries rest

/-- `DeviceRegistry::load`, into an empty registry. -/
def load : HostM Unit := do
  sideOp
  let host ← read
  let devices ← loadDevicesStrict (Keyed.sortBy id (host.disk.folders.map Prod.fst))
  loadEntries devices

end Load

structure Server where
  disk : Disk
  registry : Option Registry

inductive Call
  | register (device : Device) (name token : String) (now : Nat)
  | authenticate (token : String) (now : Nat)
  | reportCapabilities (deviceId : String) (vaultId : Option String) (capabilities : List String)
  | flushLastSeen (force : Bool) (now : Nat) (order : List String)
  | revoke (deviceId : String) (now : Nat)
  | purgeExpiredRevoked (ttlSecs now : Nat) (rank : String → FileName → Nat) (order : List String)

/-- What happens to a server: it starts, or it is called. -/
inductive Event
  | restart
  | call (call : Call)

inductive Reply
  | none
  | authenticated (deviceId : String)
  | done
  | failed
  deriving DecidableEq

def Call.run : Call → HostM Reply
  | .register device name token now => do
    Devices.register device name token now
    pure .done
  | .authenticate token now => do
    let host ← read
    let (registry, result) := host.registry.authenticate token now
    update fun host => { host with registry }
    match result with
    | .ok deviceId => pure (.authenticated deviceId)
    | .error _ => pure .failed
  | .reportCapabilities deviceId vaultId capabilities => do
    Devices.reportCapabilities deviceId vaultId capabilities
    pure .done
  | .flushLastSeen force now order => do
    Devices.flushLastSeen force now order
    pure .done
  | .revoke deviceId now => do
    Devices.revoke deviceId now
    pure .done
  | .purgeExpiredRevoked ttlSecs now rank order => do
    Devices.purgeExpiredRevoked ttlSecs now rank order
    pure .done

def Server.step (server : Server) (event : Event) (plan : Plan) : Server × Reply :=
  match event, server.registry with
  | .restart, _ =>
    let (result, world) := load ⟨⟨server.disk, ⟨[], []⟩⟩, plan⟩
    match result with
    | .ok () =>
      (⟨world.state.disk, if plan.survives then some world.state.registry else none⟩, .none)
    | .error _ => (⟨world.state.disk, none⟩, .none)
  | .call _, none => (server, .none)
  | .call call, some registry =>
    let (result, world) := call.run ⟨⟨server.disk, registry⟩, plan⟩
    if plan.survives then
      (⟨world.state.disk, some world.state.registry⟩,
        match result with
        | .ok reply => reply
        | .error _ => .failed)
    else (⟨world.state.disk, none⟩, .none)

def Server.after (server : Server) (events : List (Event × Plan)) : Server :=
  events.foldl (fun server event => (server.step event.1 event.2).1) server

def Server.fresh : Server := ⟨⟨[], []⟩, none⟩

end Obsetync.Devices

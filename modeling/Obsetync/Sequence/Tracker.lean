import Obsetync.StorageLayout
import Obsetync.Sequence.Window
import Obsetync.Wire

namespace Obsetync.Sequence
open Keyed
open List hiding lookup lookup_cons

inductive ReplayDecision
  | accepted
  | replay (greatestSeen : Nat)
  deriving DecidableEq

/-- A device directory: the content of its `seq-window`, and the older contents that a power loss
can still bring back because the directory was not synced since. -/
structure Folder where
  visible : Option Bytes
  lingering : List (Option Bytes)

abbrev Disk := List (String × Folder)

def Disk.folder (disk : Disk) (name : String) : Option Folder :=
  (lookup Prod.fst disk name).map Prod.snd

def Disk.update (disk : Disk) (name : String) (f : Folder → Folder) : Disk :=
  disk.map fun entry => if entry.1 = name then (entry.1, f entry.2) else entry

/-- `create_dir_all` of a device directory. -/
def Disk.createDir (disk : Disk) (name : String) : Disk :=
  if (disk.folder name).isSome then disk else (name, ⟨none, []⟩) :: disk

def Disk.rename (disk : Disk) (name : String) (bytes : Bytes) : Disk :=
  disk.update name fun folder => ⟨some bytes, folder.visible :: folder.lingering⟩

def Disk.syncDir (disk : Disk) (name : String) : Disk :=
  disk.update name fun folder => ⟨folder.visible, []⟩

/-- One of the contents of a directory after a power loss, or what was visible without one. -/
def Folder.settle (folder : Folder) : Option Nat → Folder
  | none => folder
  | some i => ⟨(folder.visible :: folder.lingering).getD i folder.visible, []⟩

def Disk.settle (disk : Disk) (choice : String → Option Nat) : Disk :=
  disk.map fun (name, folder) => (name, folder.settle (choice name))

/-- `u64::to_be_bytes`. -/
def toBeBytes (n : Nat) : Bytes := (Wire.leBytes 8 n).reverse

/-- `u64::from_be_bytes`. -/
def fromBeBytes (bytes : Bytes) : Nat := Wire.ofLe bytes.reverse

/-- How a call to `check_and_record` ends. A crash is a call that stopped, then a restart. -/
inductive Written
  | unreadable
  | nothing
  | directory
  | renamed
  | synced
  | returned
  deriving DecidableEq

section

variable (hashBytes : Bytes → FileHash)

def load (disk : Disk) (deviceId : String) : Except String ReplayWindow :=
  match (disk.folder (storageComponent hashBytes deviceId)).bind Folder.visible with
  | none => .ok .default
  | some bytes =>
    if bytes.length ≠ 8 then .error "invalid sequence-reservation file length"
    else .ok (.loaded (fromBeBytes bytes))

abbrev States := String → Option ReplayWindow

/-- The loop of `load_existing_devices` over the directories. -/
def loadExistingDevices (disk : Disk) : List String → States → Except String States
  | [], states => .ok states
  | name :: names, states =>
    if name = tokensName then loadExistingDevices disk names states
    else do
      let state ← load hashBytes disk name
      loadExistingDevices disk names (Function.update states name (some state))

def checkInMemory (states : States) (deviceId : String) (sequence : Nat) :
    States × Option ReplayDecision :=
  let state := (states deviceId).getD .default
  if sequence = 0 ∨ isSeenOrStale state sequence then
    (Function.update states deviceId (some state),
      some (.replay (max state.reservedThrough state.greatestSeen)))
  else if state.reservedThrough < sequence then
    (Function.update states deviceId (some state), none)
  else (Function.update states deviceId (some (record state sequence)), some .accepted)

/-- The file operations of `persist`, as far as they got. The temporary file is written and synced
before the rename, and never read. -/
def persist (disk : Disk) (deviceId : String) (reservedThrough : Nat) : Written → Disk
  | .unreadable | .nothing => disk
  | .directory => disk.createDir (storageComponent hashBytes deviceId)
  | .renamed =>
    (disk.createDir (storageComponent hashBytes deviceId)).rename
      (storageComponent hashBytes deviceId) (toBeBytes reservedThrough)
  | .synced | .returned =>
    ((disk.createDir (storageComponent hashBytes deviceId)).rename
      (storageComponent hashBytes deviceId) (toBeBytes reservedThrough)).syncDir
        (storageComponent hashBytes deviceId)

def checkAndRecord (disk : Disk) (states : States) (deviceId : String) (sequence : Nat)
    (written : Written) : Disk × States × Except String ReplayDecision :=
  let loaded : Except String ReplayWindow :=
    match states deviceId with
    | some state => .ok state
    | none =>
      if written = .unreadable then .error "read failed" else load hashBytes disk deviceId
  match loaded with
  | .error e => (disk, states, .error e)
  | .ok state =>
    if sequence = 0 ∨ isSeenOrStale state sequence then
      (disk, Function.update states deviceId (some state),
        .ok (.replay (max state.reservedThrough state.greatestSeen)))
    else if state.reservedThrough < sequence then
      let reservedThrough := reservationCeiling sequence
      let disk' := persist hashBytes disk deviceId reservedThrough written
      if written = .returned then
        (disk', Function.update states deviceId
          (some (record { state with reservedThrough := reservedThrough } sequence)), .ok .accepted)
      else (disk', Function.update states deviceId (some state), .error "reservation failed")
    else (disk, Function.update states deviceId (some (record state sequence)), .ok .accepted)

structure Server where
  disk : Disk
  states : Option States

/-- A request reaches the tracker, or the server starts. A start can fail to read the disk. -/
inductive Event
  | checkInMemory (deviceId : String) (sequence : UInt64)
  | checkAndRecord (deviceId : String) (sequence : UInt64) (written : Written)
  | restart (choice : String → Option Nat) (readable : Bool)

inductive Reply
  | decided (decision : ReplayDecision)
  | reserve
  | failed
  | quiet
  deriving DecidableEq

def Reply.ofExcept : Except String ReplayDecision → Reply
  | .ok decision => .decided decision
  | .error _ => .failed

def Server.step (server : Server) : Event → Server × Reply
  | .checkInMemory deviceId sequence =>
    match server.states with
    | none => (server, .quiet)
    | some states =>
      let (states, decision) := Sequence.checkInMemory states deviceId sequence.toNat
      (⟨server.disk, some states⟩, decision.elim .reserve .decided)
  | .checkAndRecord deviceId sequence written =>
    match server.states with
    | none => (server, .quiet)
    | some states =>
      let (disk, states, decision) :=
        Sequence.checkAndRecord hashBytes server.disk states deviceId sequence.toNat written
      (⟨disk, some states⟩, .ofExcept decision)
  | .restart choice readable =>
    let disk := server.disk.settle choice
    let states := loadExistingDevices hashBytes disk (disk.map Prod.fst) fun _ => none
    (⟨disk, if readable then states.toOption else none⟩, .quiet)

def Event.request : Event → Option (String × Nat)
  | .checkInMemory deviceId sequence => some (deviceId, sequence.toNat)
  | .checkAndRecord deviceId sequence _ => some (deviceId, sequence.toNat)
  | .restart _ _ => none

/-- The number that a step accepts for the device, if it accepts one. -/
def Server.accepts (server : Server) (deviceId : String) (event : Event) : List Nat :=
  match event.request with
  | some (requester, sequence) =>
    if requester = deviceId ∧ (server.step hashBytes event).2 = .decided .accepted then [sequence]
    else []
  | none => []

def Server.accepted (deviceId : String) : Server → List Event → List Nat
  | _, [] => []
  | server, event :: events =>
    server.accepts hashBytes deviceId event ++
      accepted deviceId (server.step hashBytes event).1 events

def Server.after (server : Server) (events : List Event) : Server :=
  events.foldl (fun server event => (server.step hashBytes event).1) server

end

section Disk

variable {disk : Disk} {name other : String} {f : Folder → Folder}

theorem lookup_map_value (l : List (String × Folder)) (g : String → Folder → Folder) (k : String) :
    (lookup Prod.fst (l.map fun entry => (entry.1, g entry.1 entry.2)) k).map Prod.snd =
      ((lookup Prod.fst l k).map Prod.snd).map (g k) := by
  induction l with
  | nil => rfl
  | cons entry l ih =>
    rw [map_cons, lookup_cons, lookup_cons]
    split_ifs with h
    · rw [← h]
      rfl
    · exact ih

theorem Disk.folder_update : (disk.update name f).folder other =
    if other = name then (disk.folder other).map f else disk.folder other := by
  have hmap : disk.update name f =
      disk.map fun entry => (entry.1, if entry.1 = name then f entry.2 else entry.2) := by
    apply map_congr_left
    intro entry _
    split_ifs <;> rfl
  rw [folder, hmap, lookup_map_value disk (fun k v => if k = name then f v else v)]
  split_ifs with h
  · rfl
  · exact Option.map_id'

theorem Disk.folder_settle :
    (disk.settle choice).folder name = (disk.folder name).map (·.settle (choice name)) :=
  lookup_map_value disk (fun k v => v.settle (choice k)) name

theorem Disk.folder_createDir : (disk.createDir name).folder other =
    if other = name then some ((disk.folder other).getD ⟨none, []⟩) else disk.folder other := by
  rw [createDir]
  split_ifs with hsome heq heq
  · obtain ⟨found, hfound⟩ := Option.isSome_iff_exists.1 hsome
    rw [heq, hfound]
    rfl
  · rfl
  · rw [Option.not_isSome_iff_eq_none] at hsome
    rw [heq, hsome, folder, lookup_cons, if_pos rfl]
    rfl
  · rw [folder, lookup_cons, if_neg (Ne.symm heq)]
    rfl

/-- The contents the file of a directory may have now or after a power loss. -/
def Disk.contents (disk : Disk) (name : String) : List (Option Bytes) :=
  match disk.folder name with
  | none => [none]
  | some folder => folder.visible :: folder.lingering

theorem Disk.contents_congr {disk' : Disk} (h : disk'.folder name = disk.folder name) :
    disk'.contents name = disk.contents name := by
  rw [contents, contents, h]

theorem Disk.contents_createDir : (disk.createDir name).contents name = disk.contents name := by
  rw [contents, contents, folder_createDir, if_pos rfl]
  cases disk.folder name <;> rfl

theorem Disk.folder_rename : ((disk.createDir name).rename name bytes).folder name =
    some ⟨some bytes, disk.contents name⟩ := by
  rw [rename, folder_update, folder_createDir, if_pos rfl, if_pos rfl, contents]
  cases disk.folder name <;> rfl

theorem Disk.contents_rename :
    ((disk.createDir name).rename name bytes).contents name = some bytes :: disk.contents name := by
  rw [contents, folder_rename]

theorem Disk.contents_syncDir (h : (disk.folder name).isSome) :
    (disk.syncDir name).contents name = [(disk.folder name).bind Folder.visible] := by
  obtain ⟨found, hfound⟩ := Option.isSome_iff_exists.1 h
  rw [contents, syncDir, folder_update, if_pos rfl, hfound]
  rfl

theorem Disk.mem_contents_settle (h : c ∈ (disk.settle choice).contents name) :
    c ∈ disk.contents name := by
  rw [contents, folder_settle] at h
  rw [contents]
  cases hfolder : disk.folder name with
  | none =>
    rw [hfolder] at h
    exact h
  | some found =>
    rw [hfolder] at h
    cases hchoice : choice name with
    | none =>
      rw [hchoice] at h
      exact h
    | some i =>
      rw [hchoice] at h
      obtain rfl := mem_singleton.1 h
      change List.getD _ i _ ∈ _
      rw [getD_eq_getElem?_getD]
      cases hget : (found.visible :: found.lingering)[i]? with
      | none => exact mem_cons_self
      | some c => exact mem_of_getElem? hget

end Disk

def contentValue : Option Bytes → Nat
  | none => 0
  | some bytes => fromBeBytes bytes

theorem fromBeBytes_toBeBytes (h : n ≤ maxU64) : fromBeBytes (toBeBytes n) = n := by
  rw [fromBeBytes, toBeBytes, reverse_reverse]
  apply Wire.ofLe_leBytes
  rw [maxU64] at h
  omega

variable {hashBytes : Bytes → FileHash} {disk : Disk} {states : States} {deviceId : String}
  {n : Nat} {accepted : List Nat} {written : Written}

theorem folder_persist_of_ne (h : name ≠ storageComponent hashBytes deviceId) :
    (persist hashBytes disk deviceId n written).folder name = disk.folder name := by
  cases written <;>
    simp only [persist, Disk.rename, Disk.syncDir, Disk.folder_update, Disk.folder_createDir,
      if_neg h]

theorem mem_contents_persist {c : Option Bytes}
    (h : c ∈ (persist hashBytes disk deviceId n written).contents
      (storageComponent hashBytes deviceId)) :
    c = some (toBeBytes n) ∨
      written ≠ .returned ∧ c ∈ disk.contents (storageComponent hashBytes deviceId) := by
  have hsynced : c ∈ (((disk.createDir (storageComponent hashBytes deviceId)).rename
      (storageComponent hashBytes deviceId) (toBeBytes n)).syncDir
        (storageComponent hashBytes deviceId)).contents (storageComponent hashBytes deviceId) →
      c = some (toBeBytes n) := by
    intro hc
    rw [Disk.contents_syncDir (by rw [Disk.folder_rename]; rfl), Disk.folder_rename] at hc
    exact mem_singleton.1 hc
  cases written with
  | unreadable => exact .inr ⟨by decide, h⟩
  | nothing => exact .inr ⟨by decide, h⟩
  | directory =>
    rw [persist, Disk.contents_createDir] at h
    exact .inr ⟨by decide, h⟩
  | renamed =>
    rw [persist, Disk.contents_rename] at h
    exact (mem_cons.1 h).imp_right fun hc => ⟨by decide, hc⟩
  | synced => exact .inl (hsynced h)
  | returned => exact .inl (hsynced h)

end Obsetync.Sequence

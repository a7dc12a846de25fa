import Obsetync.TreeV1.Load
import Obsetync.TreeV2.RoundTrip

namespace Obsetync
open Keyed Fallible

namespace TreeV2

def maxRootIdBytes : Nat := 1024

structure RootNodeV2 where
  vaultId : String
  createdMs : UInt64
  tree : TreeV2Root
  parentHash : Option FileHash
  deviceId : String
  deriving DecidableEq

def validateRootId (kind value : String) (allowEmpty : Bool) : Except ChunkError Unit :=
  reject ((!allowEmpty && value.isEmpty) || maxRootIdBytes < value.utf8ByteSize ||
    value.toList.any isControl) s!"Tree v2 {kind} id is invalid"

def RootNodeV2.validate (root : RootNodeV2) : Except ChunkError Unit := do
  validateRootShape root.tree
  validateRootId "vault" root.vaultId false
  validateRootId "device" root.deviceId true

def RootNodeV2.new (vaultId deviceId : String) (tree : TreeV2Root) : Except ChunkError RootNodeV2 := do
  let root : RootNodeV2 := ⟨vaultId, 0, tree, none, deviceId⟩
  root.validate
  return root

end TreeV2

inductive VersionedRoot
  | v1 (root : TreeV1.RootNode)
  | v2 (root : TreeV2.RootNodeV2)
  deriving DecidableEq

namespace VersionedRoot

def treeV1 : UInt32 := 1
def treeV2 : UInt32 := 2

def version : VersionedRoot → UInt32
  | v1 _ => treeV1
  | v2 _ => treeV2

def hash (hashBytes : Bytes → FileHash) : VersionedRoot → FileHash
  | v1 root => root.hash hashBytes
  | v2 root => root.tree.hash hashBytes

def vaultId : VersionedRoot → String
  | v1 root => root.vaultId
  | v2 root => root.vaultId

def totalFiles : VersionedRoot → UInt64
  | v1 root => root.totalFiles
  | v2 root => root.tree.totalFiles

def setHistoryMetadata (createdMs : UInt64) (parentHash : Option FileHash) (deviceId : String) :
    VersionedRoot → VersionedRoot
  | v1 root => v1 { root with createdMs, parentHash, deviceId }
  | v2 root => v2 { root with createdMs, parentHash, deviceId }

end VersionedRoot

section

variable (codec : TreeV1.NodeCodec) (hashBytes : Bytes → FileHash)

/-- The root and the chunks put, in order. -/
def buildRoot (nowMs : UInt64) (entries : List FileEntry) (version : UInt32)
    (vaultId deviceId : String) : Except ChunkError (VersionedRoot × List Bytes) :=
  if version = VersionedRoot.treeV1 then
    let (root, put) := TreeV1.buildTree codec hashBytes nowMs entries vaultId deviceId
    .ok (.v1 root, put)
  else if version = VersionedRoot.treeV2 then do
    let (tree, put) ← TreeV2.buildTree hashBytes entries
    let root ← TreeV2.RootNodeV2.new vaultId deviceId tree
    return (.v2 root, put)
  else .error (.deserialize s!"unsupported tree version {version}")

def loadRootEntries (store : ChunkStore) : VersionedRoot → Except ChunkError (List FileEntry)
  | .v1 root => do
    let groups ← root.children.mapM fun child => TreeV1.loadAllEntries codec store child.2
    return sortBy FileEntry.path groups.flatten
  | .v2 root => TreeV2.loadAllEntries hashBytes store root.tree

def loadAllEntries (store : ChunkStore) (root : VersionedRoot) :
    Except ChunkError (List FileEntry) := do
  TreeV2.reject (TreeV2.maxLoadedEntries < root.totalFiles.toNat)
    "versioned root exceeds the entry limit"
  let entries ← loadRootEntries codec hashBytes store root
  let declared := root.totalFiles
  let contained := entries.length
  TreeV2.reject (UInt64.ofNat contained ≠ declared)
    s!"root declares {declared} files but contains {contained}"
  TreeV2.reject (anyPair (fun a b => b.path ≤ a.path) entries)
    "versioned root entries are not strictly ordered"
  return entries

end

/-- The files of a vault, by path. -/
structure VaultState where
  entries : List FileEntry
  sorted : Sorted FileEntry.path entries

def VaultState.at (state : VaultState) (path : String) : Option FileEntry :=
  lookup FileEntry.path state.entries path

variable {codec : TreeV1.NodeCodec} {hashBytes : Bytes → FileHash} {store : ChunkStore}

theorem anyPair_path_eq_false :
    anyPair (fun a b => b.path ≤ a.path) entries = false ↔ Sorted FileEntry.path entries := by
  rw [anyPair_eq_false]
  simp only [decide_eq_false_iff_not, not_le]
  constructor
  · intro h
    have : IsTrans FileEntry fun a b => a.path < b.path := ⟨fun _ _ _ => lt_trans⟩
    exact h.pairwise
  · exact List.Pairwise.isChain

theorem loadAllEntries_eq_ok : loadAllEntries codec hashBytes store root = .ok entries ↔
    root.totalFiles.toNat ≤ TreeV2.maxLoadedEntries ∧
      loadRootEntries codec hashBytes store root = .ok entries ∧
      UInt64.ofNat entries.length = root.totalFiles ∧ Sorted FileEntry.path entries := by
  simp only [loadAllEntries, bind_eq_ok, exists_unit, TreeV2.reject_eq_ok, pure_eq_ok,
    decide_eq_false_iff_not, not_lt, not_not, anyPair_path_eq_false]
  constructor
  · rintro ⟨hle, entries', hload, htotal, hsort, rfl⟩
    exact ⟨hle, hload, htotal, hsort⟩
  · rintro ⟨hle, hload, htotal, hsort⟩
    exact ⟨hle, entries, hload, htotal, hsort, rfl⟩

theorem toNat_ofNat_length {entries : List FileEntry}
    (h : entries.length ≤ TreeV2.maxLoadedEntries) :
    (UInt64.ofNat entries.length).toNat = entries.length :=
  UInt64.toNat_ofNat_of_lt' (lt_of_le_of_lt h (by decide))

theorem loadAllEntries_buildTree_v1 (hc : codec.Lawful) (hs : Sorted FileEntry.path entries)
    (hlen : entries.length ≤ TreeV2.maxLoadedEntries)
    (hb : TreeV1.buildTree codec hashBytes nowMs entries vaultId deviceId = (root, put))
    (hstore : store.Holds hashBytes put) (parentHash : Option FileHash) :
    loadAllEntries codec hashBytes store (.v1 { root with parentHash }) = .ok entries := by
  have hroot : root = (TreeV1.buildTree codec hashBytes nowMs entries vaultId deviceId).1 := by
    rw [hb]
  have htotal : root.totalFiles = UInt64.ofNat entries.length := by
    rw [hroot]
    rfl
  refine loadAllEntries_eq_ok.2 ⟨?_, ?_, htotal.symm, hs⟩
  · change root.totalFiles.toNat ≤ _
    rw [htotal, toNat_ofNat_length hlen]
    exact hlen
  have hgroups : root.children.mapM (fun child => TreeV1.loadAllEntries codec store child.2) =
      .ok ((TreeV1.prefixes entries).map (TreeV1.group entries)) := by
    rw [hroot]
    apply TreeV1.loadAllEntries_children hc hs hlen
    rwa [hb]
  simp only [loadRootEntries, bind_eq_ok, pure_eq_ok]
  refine ⟨_, hgroups, ?_⟩
  rw [← List.flatMap_def]
  exact hs.eq_sortBy (TreeV1.flatMap_group_perm hs).symm

/-- A state that both formats can hold. -/
structure VaultState.Storable (state : VaultState) : Prop where
  length_le : state.entries.length ≤ TreeV2.maxLoadedEntries
  paths : ∀ e ∈ state.entries, TreeV2.validatePath e.path = .ok ()

theorem VaultState.Storable.valid {state : VaultState} (h : state.Storable) :
    TreeV2.validateEntries state.entries = .ok () :=
  TreeV2.validateEntries_eq_ok.2 ⟨h.length_le, h.paths, state.sorted⟩

/-- What a format asks of a root beside its entries. -/
def RootIds (version : UInt32) (vaultId deviceId : String) : Prop :=
  version = VersionedRoot.treeV1 ∨ version = VersionedRoot.treeV2 ∧
    TreeV2.validateRootId "vault" vaultId false = .ok () ∧
    TreeV2.validateRootId "device" deviceId true = .ok ()

theorem RootNodeV2.new_eq_ok : TreeV2.RootNodeV2.new vaultId deviceId tree = .ok root ↔
    TreeV2.validateRootShape tree = .ok () ∧ TreeV2.validateRootId "vault" vaultId false = .ok () ∧
      TreeV2.validateRootId "device" deviceId true = .ok () ∧
      ⟨vaultId, 0, tree, none, deviceId⟩ = root := by
  simp only [TreeV2.RootNodeV2.new, TreeV2.RootNodeV2.validate, bind_eq_ok, exists_unit, pure_eq_ok,
    and_assoc]

theorem buildRoot_cases (h : buildRoot codec hashBytes nowMs entries version vaultId deviceId =
      .ok (root, put)) :
    RootIds version vaultId deviceId ∧ root.version = version ∧ root.vaultId = vaultId ∧
      ((TreeV1.buildTree codec hashBytes nowMs entries vaultId deviceId).2 = put ∧
          root = .v1 (TreeV1.buildTree codec hashBytes nowMs entries vaultId deviceId).1 ∨
        ∃ tree, TreeV2.buildTree hashBytes entries = .ok (tree, put) ∧
          root = .v2 ⟨vaultId, 0, tree, none, deviceId⟩) := by
  rw [buildRoot] at h
  split_ifs at h with h1 h2
  · cases h
    exact ⟨.inl h1, h1.symm, rfl, .inl ⟨rfl, rfl⟩⟩
  · obtain ⟨⟨tree, put'⟩, hb, h⟩ := bind_eq_ok.1 h
    obtain ⟨node, hnew, h⟩ := bind_eq_ok.1 h
    obtain ⟨-, hvault, hdevice, rfl⟩ := RootNodeV2.new_eq_ok.1 hnew
    cases h
    exact ⟨.inr ⟨h2, hvault, hdevice⟩, h2.symm, rfl, .inr ⟨tree, hb, rfl⟩⟩

theorem buildRoot_ok {state : VaultState} (h : state.Storable)
    (hids : RootIds version vaultId deviceId) :
    ∃ root put, buildRoot codec hashBytes nowMs state.entries version vaultId deviceId =
      .ok (root, put) := by
  rcases hids with rfl | ⟨rfl, hvault, hdevice⟩
  · exact ⟨_, _, rfl⟩
  · have hself : sortBy FileEntry.path state.entries = state.entries := state.sorted.sortBy_self
    obtain ⟨tree, put, hb, hshape, -⟩ := TreeV2.loadAllEntries_buildTree (hself.symm ▸ h.valid)
    refine ⟨.v2 ⟨vaultId, 0, tree, none, deviceId⟩, put, ?_⟩
    rw [buildRoot, if_neg (by decide), if_pos rfl, hb]
    change (TreeV2.RootNodeV2.new vaultId deviceId tree >>= _) = _
    rw [RootNodeV2.new_eq_ok.2 ⟨hshape, hvault, hdevice, rfl⟩]
    rfl

theorem loadAllEntries_buildRoot (hc : codec.Lawful) {state : VaultState} (h : state.Storable)
    (hb : buildRoot codec hashBytes nowMs state.entries version vaultId deviceId = .ok (root, put))
    (hstore : store.Holds hashBytes put) : loadAllEntries codec hashBytes store
      (root.setHistoryMetadata createdMs parentHash deviceId') = .ok state.entries := by
  obtain ⟨-, -, -, ⟨rfl, rfl⟩ | ⟨tree, htree, rfl⟩⟩ := buildRoot_cases hb
  · exact loadAllEntries_buildTree_v1 hc state.sorted h.length_le rfl hstore parentHash
  · have hself : sortBy FileEntry.path state.entries = state.entries := state.sorted.sortBy_self
    obtain ⟨tree', put', htree', -, hload⟩ := TreeV2.loadAllEntries_buildTree (hself.symm ▸ h.valid)
    cases htree.symm.trans htree'
    have hentries := hload store hstore
    rw [hself] at hentries
    obtain ⟨-, -, -, -, -, -, -, -, htotal⟩ := TreeV2.loadAllEntries_eq_ok.1 hentries
    refine loadAllEntries_eq_ok.2 ⟨?_, hentries, htotal, state.sorted⟩
    change tree.totalFiles.toNat ≤ _
    rw [← htotal, toNat_ofNat_length h.length_le]
    exact h.length_le

theorem length_le_of_loadAllEntries (hlt : entries.length < 2 ^ 64)
    (hb : buildRoot codec hashBytes nowMs entries version vaultId deviceId = .ok (root, put))
    (hload : loadAllEntries codec hashBytes store
      (root.setHistoryMetadata createdMs parentHash deviceId') = .ok loaded) :
    entries.length ≤ TreeV2.maxLoadedEntries := by
  obtain ⟨-, -, -, ⟨-, rfl⟩ | ⟨tree, htree, -⟩⟩ := buildRoot_cases hb
  · have hle : (UInt64.ofNat entries.length).toNat ≤ TreeV2.maxLoadedEntries :=
      (loadAllEntries_eq_ok.1 hload).1
    rwa [UInt64.toNat_ofNat_of_lt' hlt] at hle
  · obtain ⟨⟨⟩, hvalid, -⟩ := bind_eq_ok.1 htree
    rw [← (@sortBy_perm _ _ _ FileEntry.path).length_eq]
    exact (TreeV2.validateEntries_eq_ok.1 hvalid).1

section

variable (codec : TreeV1.NodeCodec) (hashBytes : Bytes → FileHash)

/-- A root of either format built from the entries, whatever history it carries. -/
def BuiltFrom (entries : List FileEntry) (root : VersionedRoot) (put : List Bytes) : Prop :=
  ∃ nowMs version vaultId deviceId built createdMs parentHash deviceId',
    buildRoot codec hashBytes nowMs entries version vaultId deviceId = .ok (built, put) ∧
      root = built.setHistoryMetadata createdMs parentHash deviceId'

def Stored (store : ChunkStore) (state : VaultState) (root : VersionedRoot) : Prop :=
  ∃ put, BuiltFrom codec hashBytes state.entries root put ∧ store.Holds hashBytes put

end

theorem BuiltFrom.loads_iff (hc : codec.Lawful) {state : VaultState}
    (hb : BuiltFrom codec hashBytes state.entries root put) (hstore : store.Holds hashBytes put)
    (hpaths : ∀ e ∈ state.entries, TreeV2.validatePath e.path = .ok ())
    (hlt : state.entries.length < 2 ^ 64) : loadAllEntries codec hashBytes store root = .ok loaded ↔
      state.entries.length ≤ TreeV2.maxLoadedEntries ∧ loaded = state.entries := by
  obtain ⟨nowMs, version, vaultId, deviceId, built, createdMs, parentHash, deviceId', hbuilt, rfl⟩ := hb
  constructor
  · intro hload
    have hle := length_le_of_loadAllEntries hlt hbuilt hload
    rw [loadAllEntries_buildRoot hc ⟨hle, hpaths⟩ hbuilt hstore] at hload
    exact ⟨hle, (Except.ok.inj hload).symm⟩
  · rintro ⟨hle, rfl⟩
    exact loadAllEntries_buildRoot hc ⟨hle, hpaths⟩ hbuilt hstore

theorem Stored.loads (hc : codec.Lawful) (hst : state.Storable)
    (h : Stored codec hashBytes store state root) :
    loadAllEntries codec hashBytes store root = .ok state.entries := by
  obtain ⟨put, hb, hstore⟩ := h
  rw [hb.loads_iff hc hstore hst.paths (lt_of_le_of_lt hst.length_le (by decide))]
  exact ⟨hst.length_le, rfl⟩

end Obsetync

import Obsetync.TreeV1.Flat
import Obsetync.TreeV1.UnaryCodec
import Obsetync.TreeV2.Canonical
import Obsetync.VersionedRoot

namespace Obsetync.Bridge
open Keyed Fallible List

def maxRootFiles : Nat := 5000000
def jsMaxSafeInteger : Nat := 9007199254740991

/-- The errors of `run_validate_root`. -/
inductive RootError
  | unsupportedVersion (version : UInt32)
  | tooManyFiles (totalFiles : UInt64)
  | moreChildrenThanFiles
  | emptyRootHasChildren
  | prefixesNotSorted
  | invalidPrefix (pre : String)
  | chunk (error : ChunkError)
  | unsafePath (path : String)
  | wrongPrefix (path pre : String)
  | entriesNotSorted
  | integerRange (path : String)
  | moreEntriesThanDeclared
  | wrongCount (declared : UInt64) (contained : Nat)
  deriving DecidableEq

/-- `debug` prints a string as `{:?}` does, `display` an error as `{}`. -/
def RootError.message (debug : String → String) (display : ChunkError → String) : RootError → String
  | .unsupportedVersion version => s!"unsupported root version {version}"
  | .tooManyFiles totalFiles => s!"root declares too many files: {totalFiles}"
  | .moreChildrenThanFiles => "root has more top-level children than files"
  | .emptyRootHasChildren => "empty root has child nodes"
  | .prefixesNotSorted => "root child prefixes are not strictly sorted"
  | .invalidPrefix pre => "invalid root child prefix " ++ debug pre
  | .chunk error => display error
  | .unsafePath path => "unsafe vault path " ++ debug path
  | .wrongPrefix path pre =>
    "entry " ++ debug path ++ " is stored under wrong root prefix " ++ debug pre
  | .entriesNotSorted => "root entries are not strictly path-sorted"
  | .integerRange path => "entry " ++ debug path ++ " exceeds client integer range"
  | .moreEntriesThanDeclared => "root contains more entries than declared"
  | .wrongCount declared contained => s!"root declares {declared} files but contains {contained}"

def refuse (bad : Bool) (error : RootError) : Except RootError Unit :=
  if bad then .error error else .ok ()

def validVaultPath (path : String) : Bool :=
  if path.isEmpty || 4096 < path.utf8ByteSize || path.toList.head? = some '/' ||
      path.toList.contains '\\' then false
  else if path.toList.any TreeV2.isControl then false
  else (path.toList.splitOn '/').all fun segment =>
    !segment.isEmpty && segment ≠ ['.'] && segment ≠ ['.', '.']

def validTopLevelPrefix (pre : String) : Bool :=
  if pre.isEmpty then true
  else if pre.toList.getLast? = some '/' then
    let segment := pre.toList.dropLast
    !segment.contains '/' && validVaultPath (String.ofList segment)
  else false

/-- The loop over the entries of one child: `entries` holds those of the root so far. -/
def validateChild (totalFiles : UInt64) (pre : String) : Option String → List FileEntry →
    List FileEntry → Except RootError (List FileEntry)
  | _, [], entries => .ok entries
  | previousPath, entry :: rest, entries => do
    refuse (!validVaultPath entry.path) (.unsafePath entry.path)
    refuse (TreeV1.topLevelPrefix entry.path ≠ pre) (.wrongPrefix entry.path pre)
    refuse (previousPath.any fun previous => entry.path ≤ previous) .entriesNotSorted
    refuse (jsMaxSafeInteger < entry.sizeBytes.toNat || jsMaxSafeInteger < entry.mtimeMs.toNat)
      (.integerRange entry.path)
    refuse (totalFiles.toNat < (entries ++ [entry]).length) .moreEntriesThanDeclared
    validateChild totalFiles pre (some entry.path) rest (entries ++ [entry])

section

variable (codec : TreeV1.NodeCodec) (store : ChunkStore)

def loadChild (hash : FileHash) : Except RootError (List FileEntry) :=
  (TreeV1.loadAllEntries codec store hash).mapError .chunk

def validateChildren (totalFiles : UInt64) : Option String → List (String × FileHash) →
    List FileEntry → Except RootError (List FileEntry)
  | _, [], entries => .ok entries
  | previousPrefix, (pre, childHash) :: rest, entries => do
    refuse (previousPrefix.any fun previous => pre ≤ previous) .prefixesNotSorted
    refuse (!validTopLevelPrefix pre) (.invalidPrefix pre)
    let child ← loadChild codec store childHash
    let entries ← validateChild totalFiles pre none child entries
    validateChildren totalFiles (some pre) rest entries

def runValidateRoot (root : TreeV1.RootNode) : Except RootError (List FileEntry) := do
  refuse (root.version ≠ 1) (.unsupportedVersion root.version)
  refuse (maxRootFiles < root.totalFiles.toNat) (.tooManyFiles root.totalFiles)
  refuse (root.totalFiles.toNat < root.children.length && root.totalFiles ≠ 0)
    .moreChildrenThanFiles
  refuse (root.totalFiles = 0 && !root.children.isEmpty) .emptyRootHasChildren
  let entries ← validateChildren codec store root.totalFiles none root.children []
  refuse (entries.length ≠ root.totalFiles.toNat) (.wrongCount root.totalFiles entries.length)
  return entries

variable (hashBytes : Bytes → FileHash)

/-- The projected root and the chunks put for it. -/
def runProjectRootVersion (nowMs : UInt64) (root : VersionedRoot) (targetVersion : UInt32)
    (deviceId : String) : Except ChunkError (VersionedRoot × List Bytes) := do
  let entries ← loadAllEntries codec hashBytes store root
  buildRoot codec hashBytes nowMs entries targetVersion root.vaultId deviceId

end

/-- A path below the vault: its segments name files and directories, and none leads elsewhere. -/
structure SafeRelative (path : String) : Prop where
  size : path.utf8ByteSize ≤ 4096
  plain : ∀ c ∈ path.toList, c ≠ '\\' ∧ TreeV2.isControl c = false
  segments : ∀ segment ∈ path.toList.splitOn '/',
    segment ≠ [] ∧ segment ≠ ['.'] ∧ segment ≠ ['.', '.']

variable {codec : TreeV1.NodeCodec} {hashBytes : Bytes → FileHash} {store : ChunkStore}
  {root : TreeV1.RootNode} {error : RootError} {totalFiles : UInt64} {pre : String}
  {entries loaded : List FileEntry}

@[simp] theorem refuse_eq_ok : refuse bad error = .ok () ↔ bad = false := by
  cases bad <;> simp [refuse]

theorem validVaultPath_iff : validVaultPath path = true ↔ TreeV2.validatePath path = .ok () := by
  have hsegments : ((path.toList.splitOn '/').all fun segment =>
      !segment.isEmpty && segment ≠ ['.'] && segment ≠ ['.', '.']) =
      !(path.toList.splitOn '/').any fun segment =>
        segment = [] || segment = ['.'] || segment = ['.', '.'] := by
    rw [not_any_eq_all_not]
    congr 1
    funext segment
    cases segment <;> simp
  simp only [validVaultPath, TreeV2.validatePath, bind_eq_ok, exists_unit, TreeV2.reject_eq_ok,
    Bool.or_eq_false_iff, hsegments]
  change _ ↔ ((_ ∧ decide (4096 < path.utf8ByteSize) = false) ∧ _) ∧ _
  generalize path.isEmpty = empty, decide (4096 < path.utf8ByteSize) = long,
    decide (path.toList.head? = some '/') = absolute, path.toList.contains '\\' = backslash,
    path.toList.any TreeV2.isControl = control, (path.toList.splitOn '/').any _ = segment
  revert empty long absolute backslash control segment
  decide

theorem safeRelative_of_valid (h : validVaultPath path = true) : SafeRelative path := by
  rw [validVaultPath] at h
  split_ifs at h with h1 h2
  simp only [Bool.or_eq_true, not_or, Bool.not_eq_true, decide_eq_false_iff_not, not_lt] at h1
  obtain ⟨⟨⟨-, hsize⟩, -⟩, hback⟩ := h1
  rw [Bool.not_eq_true, any_eq_false] at h2
  rw [all_eq_true] at h
  refine ⟨hsize, fun c hc => ⟨?_, by simpa using h2 c hc⟩, fun segment hmem => ?_⟩
  · rintro rfl
    rw [contains_iff_mem.2 hc] at hback
    cases hback
  · have hsegment := h segment hmem
    simp only [Bool.and_eq_true, Bool.not_eq_true', isEmpty_eq_false_iff, decide_eq_true_eq]
      at hsegment
    exact ⟨hsegment.1.1, hsegment.1.2, hsegment.2⟩

theorem validateChild_spec (h : validateChild totalFiles pre previous child entries = .ok loaded) :
    loaded = entries ++ child ∧ Sorted FileEntry.path child ∧
      ∀ e ∈ child, validVaultPath e.path = true ∧ TreeV1.topLevelPrefix e.path = pre ∧
        ∀ p ∈ previous, p < e.path := by
  induction child generalizing previous entries with
  | nil =>
    cases h
    exact ⟨(append_nil _).symm, List.Pairwise.nil, nofun⟩
  | cons entry child ih =>
    simp only [validateChild, bind_eq_ok, exists_unit, refuse_eq_ok, Bool.not_eq_false',
      decide_eq_false_iff_not, not_not] at h
    obtain ⟨hvalid, hpre, hprevious, -, -, hrest⟩ := h
    obtain ⟨rfl, hsort, hall⟩ := ih hrest
    have hlt : ∀ p ∈ previous, p < entry.path := by
      intro p hp
      rw [Option.mem_def] at hp
      subst hp
      simpa using hprevious
    refine ⟨by simp, hsort.cons fun e he => (hall e he).2.2 _ rfl, ?_⟩
    intro e he
    rcases mem_cons.1 he with rfl | he
    · exact ⟨hvalid, hpre, hlt⟩
    · obtain ⟨hv, hp, hafter⟩ := hall e he
      exact ⟨hv, hp, fun p hmem => (hlt p hmem).trans (hafter _ rfl)⟩

theorem loadChild_eq_ok {hash : FileHash} : loadChild codec store hash = .ok loaded ↔
      TreeV1.loadAllEntries codec store hash = .ok loaded := by
  rw [loadChild]
  cases TreeV1.loadAllEntries codec store hash with
  | ok entries =>
    change Except.ok entries = _ ↔ _
    rw [Except.ok.injEq, Except.ok.injEq]
  | error e =>
    constructor
    · intro h
      cases h
    · intro h
      cases h

theorem validateChildren_spec {previous : Option String}
    (h : validateChildren codec store totalFiles previous children entries = .ok loaded) :
    loaded = entries ++ children.flatMap (fun child => TreeV1.entriesAt codec store child.2) ∧
      Sorted Prod.fst children ∧
      ∀ child ∈ children, (∀ p ∈ previous, p < child.1) ∧
        TreeV1.loadAllEntries codec store child.2 = .ok (TreeV1.entriesAt codec store child.2) ∧
        Sorted FileEntry.path (TreeV1.entriesAt codec store child.2) ∧
        ∀ e ∈ TreeV1.entriesAt codec store child.2,
          validVaultPath e.path = true ∧ TreeV1.topLevelPrefix e.path = child.1 := by
  induction children generalizing previous entries with
  | nil =>
    cases h
    exact ⟨(append_nil _).symm, List.Pairwise.nil, nofun⟩
  | cons head children ih =>
    obtain ⟨pre, hash⟩ := head
    simp only [validateChildren, bind_eq_ok, exists_unit, refuse_eq_ok, loadChild_eq_ok] at h
    obtain ⟨hprevious, -, child, hload, entries', hchild, hrest⟩ := h
    obtain ⟨rfl, hsorted, hall⟩ := validateChild_spec hchild
    obtain ⟨rfl, hsort, hchildren⟩ := ih hrest
    have hat : TreeV1.entriesAt codec store hash = child := TreeV1.entriesAt_eq hload
    have hlt : ∀ p ∈ previous, p < pre := by
      intro p hp
      rw [Option.mem_def] at hp
      subst hp
      simpa using hprevious
    refine ⟨by rw [flatMap_cons, hat, append_assoc],
      hsort.cons fun c hc => (hchildren c hc).1 _ rfl, ?_⟩
    intro c hc
    rcases mem_cons.1 hc with rfl | hc
    · rw [hat]
      exact ⟨hlt, hload, hsorted, fun e he => ⟨(hall e he).1, (hall e he).2.1⟩⟩
    · obtain ⟨hafter, hrest⟩ := hchildren c hc
      exact ⟨fun p hp => (hlt p hp).trans (hafter _ rfl), hrest⟩

theorem runValidateRoot_spec (h : runValidateRoot codec store root = .ok entries) :
    TreeV1.Sound codec store root ∧ entries = TreeV1.flat codec store root ∧
      (∀ e ∈ entries, validVaultPath e.path = true) ∧
      entries.length = root.totalFiles.toNat ∧ entries.length ≤ maxRootFiles := by
  simp only [runValidateRoot, bind_eq_ok, exists_unit, refuse_eq_ok, pure_eq_ok,
    decide_eq_false_iff_not, not_lt, not_not] at h
  obtain ⟨-, hmax, -, -, loaded, hchildren, hcount, rfl⟩ := h
  obtain ⟨hflat, hsort, hall⟩ := validateChildren_spec hchildren
  rw [nil_append] at hflat
  change loaded = TreeV1.flat codec store root at hflat
  refine ⟨⟨hsort, fun c hc => (hall c hc).2.1, fun c hc => (hall c hc).2.2.1,
    fun c hc e he => ((hall c hc).2.2.2 e he).2, ?_⟩, hflat, ?_, hcount, hcount ▸ hmax⟩
  · rw [← hflat, hcount, UInt64.ofNat_toNat]
  · intro e he
    rw [hflat, TreeV1.flat, mem_flatMap] at he
    obtain ⟨child, hc, he⟩ := he
    exact ((hall child hc).2.2.2 e he).1

end Obsetync.Bridge

namespace Obsetync.TreeV1
open Keyed Fallible List

variable {codec : NodeCodec} {hashBytes : Bytes → FileHash} {store : ChunkStore} {root : RootNode}

theorem Sound.loadAllEntries (h : Sound codec store root)
    (hlen : (flat codec store root).length ≤ TreeV2.maxLoadedEntries) :
    Obsetync.loadAllEntries codec hashBytes store (.v1 root) =
      .ok (sortBy FileEntry.path (flat codec store root)) := by
  have hgroups : root.children.mapM (fun child => TreeV1.loadAllEntries codec store child.2) =
      .ok (root.children.map fun child => entriesAt codec store child.2) := by
    rw [mapM_eq_ok, forall₂_map_right_iff, forall₂_same]
    exact h.loads
  refine loadAllEntries_eq_ok.2 ⟨?_, ?_, ?_, h.sorted_flat⟩
  · change root.totalFiles.toNat ≤ _
    rw [h.total, toNat_ofNat_length hlen]
    exact hlen
  · simp only [loadRootEntries, bind_eq_ok, pure_eq_ok]
    exact ⟨_, hgroups, by rw [← flatMap_def]; rfl⟩
  · rw [sortBy_perm.length_eq]
    exact h.total.symm

end Obsetync.TreeV1

namespace Obsetync.Bridge
open Keyed Fallible List

variable {codec : TreeV1.NodeCodec} {hashBytes : Bytes → FileHash} {store : ChunkStore}
  {root : VersionedRoot} {state : VaultState}

theorem runProjectRootVersion_eq
    (h : loadAllEntries codec hashBytes store root = .ok state.entries) :
    runProjectRootVersion codec store hashBytes nowMs root targetVersion deviceId =
      buildRoot codec hashBytes nowMs state.entries targetVersion root.vaultId deviceId := by
  rw [runProjectRootVersion, h]
  rfl

theorem project_ok (hc : codec.Lawful) (hst : state.Storable)
    (h : loadAllEntries codec hashBytes store root = .ok state.entries)
    (hids : RootIds targetVersion root.vaultId deviceId) (nowMs : UInt64) :
    ∃ root' put, runProjectRootVersion codec store hashBytes nowMs root targetVersion deviceId =
        .ok (root', put) ∧ root'.version = targetVersion ∧ root'.vaultId = root.vaultId ∧
      ∀ store', store'.Holds hashBytes put →
        loadAllEntries codec hashBytes store' root' = .ok state.entries := by
  obtain ⟨root', put, hb⟩ := buildRoot_ok hst hids
  obtain ⟨-, hversion, hvault, -⟩ := buildRoot_cases hb
  refine ⟨root', put, by rw [runProjectRootVersion_eq h, hb], hversion, hvault, ?_⟩
  intro store' hstore
  apply Stored.loads hc hst
  refine ⟨put, ⟨nowMs, targetVersion, root.vaultId, deviceId, root', ?_⟩, hstore⟩
  cases root' with
  | v1 node => exact ⟨node.createdMs, node.parentHash, node.deviceId, hb, rfl⟩
  | v2 node => exact ⟨node.createdMs, node.parentHash, node.deviceId, hb, rfl⟩

theorem project_refused (hst : state.Storable)
    (h : loadAllEntries codec hashBytes store root = .ok state.entries)
    (hvault : TreeV2.validateRootId "vault" root.vaultId false = .error error) (nowMs : UInt64)
    (deviceId : String) :
    runProjectRootVersion codec store hashBytes nowMs root VersionedRoot.treeV2 deviceId =
      .error error := by
  have hself : sortBy FileEntry.path state.entries = state.entries := state.sorted.sortBy_self
  obtain ⟨tree, put, hb, hshape, -⟩ := TreeV2.loadAllEntries_buildTree (hself.symm ▸ hst.valid)
  rw [runProjectRootVersion_eq h, buildRoot, if_neg (by decide), if_pos rfl, hb]
  change (TreeV2.RootNodeV2.new root.vaultId deviceId tree >>= _) = _
  rw [TreeV2.RootNodeV2.new, TreeV2.RootNodeV2.validate]
  change ((TreeV2.validateRootShape tree >>= fun _ => _) >>= _) >>= _ = _
  rw [hshape]
  change ((TreeV2.validateRootId "vault" root.vaultId false >>= fun _ => _) >>= _) >>= _ = _
  rw [hvault]
  rfl

def emptyVault (vaultId : String) : TreeV1.RootNode := ⟨vaultId, 0, 1, [], 0, none, ""⟩

def nothingStored : ChunkStore := ⟨fun hash => .error (.notFound hash)⟩

end Obsetync.Bridge

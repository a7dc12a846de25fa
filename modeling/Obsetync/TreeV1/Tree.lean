import Obsetync.Entry
import Obsetync.Fallible

namespace Obsetync.TreeV1
open Keyed Fallible List

def targetChunkEntries : Nat := 1000
def maxVisitedNodes : Nat := 1000000
def maxLoadedEntries : Nat := 10000000

/-- The FlatBuffers encodings of `LeafChunk` and `InternalNode`. -/
structure NodeCodec where
  encodeLeaf : List FileEntry → Bytes
  decodeLeaf : Bytes → Except ChunkError (List FileEntry)
  encodeInternal : List (String × FileHash) → Bytes
  decodeInternal : Bytes → Except ChunkError (List (String × FileHash))

/-- What is assumed of the encodings: nodes of the sizes a tree is built of are read back, and the
envelope tells an internal node from a leaf. -/
structure NodeCodec.Lawful (codec : NodeCodec) : Prop where
  leaf : ∀ entries, entries.length ≤ targetChunkEntries →
    codec.decodeLeaf (codec.encodeLeaf entries) = .ok entries
  internal : ∀ children, children.length * targetChunkEntries ≤ maxLoadedEntries →
    codec.decodeInternal (codec.encodeInternal children) = .ok children
  tagged : ∀ children, ∃ e, codec.decodeLeaf (codec.encodeInternal children) = .error e

structure RootNode where
  vaultId : String
  createdMs : UInt64
  version : UInt32
  children : List (String × FileHash)
  totalFiles : UInt64
  parentHash : Option FileHash
  deviceId : String
  deriving DecidableEq

/-- "notes/2024/jan.md" is under "notes/", "readme.md" under "". -/
def topLevelPrefix (path : String) : String :=
  if path.toList.contains '/' then
    String.ofList (path.toList.takeWhile (· ≠ '/') ++ ['/'])
  else ""

def chunks (n : Nat) (l : List α) : List (List α) :=
  (List.range ((l.length + n - 1) / n)).map fun i => (l.drop (i * n)).take n

/-- The keys of a map collected from the list, in order. -/
def distinct (keys : List String) : List String := dedup (sortBy id keys)

section

variable (codec : NodeCodec) (hashBytes : Bytes → FileHash)

def RootNode.hash (root : RootNode) : FileHash :=
  hashBytes (root.children.flatMap fun child => asBytes child.1 ++ child.2.val)

def leafChunk (entries : List FileEntry) : Bytes := codec.encodeLeaf (sortBy FileEntry.path entries)

def internalNode (children : List (String × FileHash)) : Bytes :=
  codec.encodeInternal (sortBy Prod.fst children)

def buildLeafChunks (entries : List FileEntry) : List Bytes :=
  let leaves := (chunks targetChunkEntries entries).map (leafChunk codec)
  if leaves.isEmpty then [leafChunk codec []] else leaves

def childLabels (pre : String) (leaves : List Bytes) : List (String × FileHash) :=
  leaves.mapIdx fun i leaf => (pre ++ toString i, hashBytes leaf)

/-- The hash of one top-level directory and the chunks put for it. -/
def buildGroup (pre : String) (entries : List FileEntry) : FileHash × List Bytes :=
  match buildLeafChunks codec entries with
  | [leaf] => (hashBytes leaf, [leaf])
  | leaves =>
    let node := internalNode codec (childLabels hashBytes pre leaves)
    (hashBytes node, leaves ++ [node])

def group (entries : List FileEntry) (pre : String) : List FileEntry :=
  entries.filter (topLevelPrefix ·.path = pre)

def prefixes (entries : List FileEntry) : List String :=
  distinct (entries.map (topLevelPrefix ·.path))

/-- The groups of `build_tree` in prefix order, each with its node. -/
def builtGroups (entries : List FileEntry) : List (String × FileHash × List Bytes) :=
  (prefixes entries).map fun pre =>
    (pre, buildGroup codec hashBytes pre (sortBy FileEntry.path (group entries pre)))

/-- The root and the chunks put, in order. -/
def buildTree (nowMs : UInt64) (entries : List FileEntry) (vaultId deviceId : String) :
    RootNode × List Bytes :=
  let groups := builtGroups codec hashBytes entries
  (⟨vaultId, nowMs, 1, groups.map fun (pre, hash, _) => (pre, hash),
    UInt64.ofNat entries.length, none, deviceId⟩, groups.flatMap fun (_, _, put) => put)

end

section

variable (codec : NodeCodec) (store : ChunkStore)

/-- The loop of `load_all_entries` over its stack, top first. The node limit stops it. -/
def loadLoop : Nat → List FileHash → List FileEntry → Except ChunkError (List FileEntry)
  | _, [], entries => .ok entries
  | 0, _ :: _, _ => .error (.deserialize "tree has too many nodes")
  | fuel + 1, hash :: pending, entries => do
    let bytes ← store.get hash
    match codec.decodeLeaf bytes with
    | .ok leaf =>
      if maxLoadedEntries < entries.length + leaf.length then
        throw (.deserialize "tree has too many entries")
      else loadLoop fuel pending (entries ++ leaf)
    | .error _ =>
      match codec.decodeInternal bytes with
      | .ok children => loadLoop fuel (children.map Prod.snd ++ pending) entries
      | .error _ => throw (.deserialize "could not parse as LeafChunk or InternalNode")

def loadAllEntries (hash : FileHash) : Except ChunkError (List FileEntry) := do
  let entries ← loadLoop codec store maxVisitedNodes [hash] []
  return sortBy FileEntry.path entries

end

section

variable {codec : NodeCodec} {hashBytes : Bytes → FileHash} {store : ChunkStore}

theorem distinct_spec (keys : List String) :
    Sorted id (distinct keys) ∧ ∀ p, p ∈ distinct keys ↔ p ∈ keys := by
  obtain ⟨hsort, hmem⟩ := dedup_spec (@sortBy_pairwise _ _ _ id (l := keys))
  refine ⟨hsort, fun p => ?_⟩
  rw [distinct, hmem, sortBy_perm.mem_iff]

theorem flatten_chunks_aux (n k : Nat) (l : List α) :
    ((List.range k).map fun i => (l.drop (i * n)).take n).flatten = l.take (k * n) := by
  induction k with
  | zero => simp
  | succ k ih =>
    rw [range_succ, map_append, flatten_append, ih, Nat.add_mul, Nat.one_mul, take_add]
    simp

theorem flatten_chunks (hn : 0 < n) (l : List α) : (chunks n l).flatten = l := by
  rw [chunks, flatten_chunks_aux]
  apply take_of_length_le
  have h := Nat.div_add_mod (l.length + n - 1) n
  have hlt := Nat.mod_lt (l.length + n - 1) hn
  rw [Nat.mul_comm]
  omega

theorem length_of_mem_chunks (h : c ∈ chunks n l) : c.length ≤ n := by
  obtain ⟨i, -, rfl⟩ := mem_map.1 h
  exact length_take_le _ _

theorem length_chunks_mul_le (n : Nat) (l : List α) : (chunks n l).length * n ≤ l.length + n - 1 := by
  rw [chunks, length_map, length_range]
  exact Nat.div_mul_le_self _ _

end

end Obsetync.TreeV1

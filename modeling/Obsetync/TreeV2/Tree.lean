import Obsetync.TreeV2.Node

namespace Obsetync.TreeV2
open Keyed

structure Segment where
  start : Nat
  stop : Nat
  stableEnd : Bool
  deriving DecidableEq, Repr

def Segment.slice (segment : Segment) (records : List α) : List α :=
  (records.take segment.stop).drop segment.start

def gearWord (value : UInt64) : UInt64 :=
  let mixed := value + 0x9e3779b97f4a7c15
  let mixed := (mixed ^^^ (mixed >>> 30)) * 0xbf58476d1ce4e5b9
  let mixed := (mixed ^^^ (mixed >>> 27)) * 0x94d049bb133111eb
  mixed ^^^ (mixed >>> 31)

def rotateLeft1 (state : UInt64) : UInt64 := (state <<< 1) ||| (state >>> 63)

def gearHash (path : Bytes) : UInt64 :=
  path.foldl (fun state byte => rotateLeft1 state + gearWord byte.toUInt64) 0

structure SegmentLimits where
  headerBytes : Nat
  minRecords : Nat
  maxRecords : Nat
  minBytes : Nat
  anchorMask : UInt64

def leafLimits : SegmentLimits :=
  ⟨leafHeaderBytes, minLeafEntries, maxLeafEntries, minLeafBytes, leafAnchorMask⟩

def internalLimits : SegmentLimits :=
  ⟨internalHeaderBytes, minInternalChildren, maxInternalChildren, 0, internalAnchorMask⟩

def SegmentLimits.overflows (limits : SegmentLimits) (records bytes length : Nat) : Bool :=
  limits.maxRecords ≤ records || maxNodeBytes < bytes + length

/-- Whether a segment ends behind the record with this key: an anchor path, or a full segment. -/
def SegmentLimits.ends (limits : SegmentLimits) (records bytes : Nat) (key : Bytes) : Bool :=
  let natural := limits.minRecords ≤ records && limits.minBytes ≤ bytes &&
    gearHash key &&& limits.anchorMask = 0
  let forced := limits.maxRecords ≤ records || bytes = maxNodeBytes
  natural || forced

/-- The loop of `segment_by` over the records from `index` on. -/
def segmentLoop (limits : SegmentLimits) (recordLen : α → Nat) (key : α → Bytes) :
    List α → Nat → Nat → Nat → List Segment → Except ChunkError (List Segment)
  | [], index, start, _, output =>
    .ok (if start < index then output ++ [⟨start, index, false⟩] else output)
  | record :: records, index, start, bytes, output => do
    let length := recordLen record
    reject (maxNodeBytes < limits.headerBytes + length) "one Tree v2 record exceeds the node cap"
    let cut := start < index && limits.overflows (index - start) bytes length
    let output := if cut then output ++ [⟨start, index, true⟩] else output
    let start := if cut then index else start
    let bytes := (if cut then limits.headerBytes else bytes) + length
    if limits.ends (index - start + 1) bytes (key record) then
      segmentLoop limits recordLen key records (index + 1) (index + 1) limits.headerBytes
        (output ++ [⟨start, index + 1, true⟩])
    else segmentLoop limits recordLen key records (index + 1) start bytes output

def segmentBy (limits : SegmentLimits) (recordLen : α → Nat) (key : α → Bytes)
    (records : List α) : Except ChunkError (List Segment) :=
  segmentLoop limits recordLen key records 0 0 limits.headerBytes []

def segmentEntries (entries : List FileEntry) : Except ChunkError (List Segment) :=
  if entries.isEmpty then .ok []
  else do
    validateEntries entries
    segmentBy leafLimits leafRecordLen (fun entry => asBytes entry.path) entries

def segmentRanges (ranges : List RangeRef) : Except ChunkError (List Segment) :=
  if ranges.isEmpty then .ok []
  else segmentBy internalLimits rangeRecordLen (fun range => asBytes range.maxPath) ranges

def emptyRoot : TreeV2Root := ⟨treeVersion, 0, none⟩

structure TraversalBudget where
  nodes : Nat
  entries : Nat

def TraversalBudget.node (budget : TraversalBudget) (depth : UInt16) :
    Except ChunkError TraversalBudget := do
  reject (maxTreeDepth < depth) "Tree v2 exceeds the depth limit"
  reject (maxVisitedNodes < budget.nodes + 1) "Tree v2 exceeds the node limit"
  return { budget with nodes := budget.nodes + 1 }

def TraversalBudget.addEntries (budget : TraversalBudget) (count : Nat) :
    Except ChunkError TraversalBudget := do
  reject (maxLoadedEntries < budget.entries + count) "Tree v2 exceeds the entry limit"
  return { budget with entries := budget.entries + count }

structure UpdateStats where
  leavesLoaded : Nat
  entriesLoaded : Nat
  replacementLeaves : Nat
  internalNodesEmitted : Nat
  resyncLeavesScanned : Nat
  reachedTreeEnd : Bool
  deriving DecidableEq, Repr

def UpdateStats.zero : UpdateStats := ⟨0, 0, 0, 0, 0, false⟩

section

variable (hashBytes : Bytes → FileHash)

/-- The turns of `root_from_leaves`, one level each: the top descriptor, the nodes emitted and the
chunks put. A turn fails at the depth limit, so `fuel` covers every height. -/
def rootLevels : Nat → List RangeRef → Nat → List Bytes →
    Except ChunkError (RangeRef × Nat × List Bytes)
  | _, [child], emitted, chunks => .ok (child, emitted, chunks)
  | fuel + 1, first :: second :: rest, emitted, chunks => do
    let ranges := first :: second :: rest
    reject (maxTreeDepth ≤ first.height) "Tree v2 exceeds the depth limit"
    validateRanges ranges first.height
    let segments ← segmentRanges ranges
    let parents ← segments.mapM fun segment =>
      storeInternal hashBytes first.height (segment.slice ranges)
    rootLevels fuel (parents.map Prod.fst) (emitted + parents.length)
      (chunks ++ parents.map Prod.snd)
  | _, _, _, _ => .error (invalid "Tree v2 exceeds the depth limit")

def rootFromLeaves (ranges : List RangeRef) : Except ChunkError (TreeV2Root × Nat × List Bytes) :=
  if ranges.isEmpty then .ok (emptyRoot, 0, [])
  else do
    validateRanges ranges 0
    let totalFiles ← sumFileCount ranges
    let (child, emitted, chunks) ← rootLevels hashBytes (maxTreeDepth.toNat + 1) ranges 0 []
    return (⟨treeVersion, totalFiles, some child⟩, emitted, chunks)

def storeLeaves (entries : List FileEntry) (segments : List Segment) :
    Except ChunkError (List (RangeRef × Bytes)) :=
  segments.mapM fun segment => storeLeaf hashBytes (segment.slice entries)

/-- The root and the chunks put, in order. -/
def buildTree (entries : List FileEntry) : Except ChunkError (TreeV2Root × List Bytes) := do
  let entries := sortBy FileEntry.path entries
  validateEntries entries
  if entries.isEmpty then return (emptyRoot, [])
  else
    let segments ← segmentEntries entries
    let leaves ← storeLeaves hashBytes entries segments
    let (root, _, chunks) ← rootFromLeaves hashBytes (leaves.map Prod.fst)
    return (root, leaves.map Prod.snd ++ chunks)

/-- The stack loop of `collect_leaf_refs`, its top first. The node budget stops it. -/
def collectLoop (store : ChunkStore) : Nat → List RangeRef → TraversalBudget → List RangeRef →
    Except ChunkError (List RangeRef × TraversalBudget)
  | _, [], budget, leaves => .ok (leaves, budget)
  | 0, _ :: _, _, _ => .error (invalid "Tree v2 exceeds the node limit")
  | fuel + 1, range :: pending, budget, leaves => do
    let budget ← budget.node range.height
    if range.height = 0 then collectLoop store fuel pending budget (leaves ++ [range])
    else
      match ← loadNode hashBytes store range with
      | .internal _ children => collectLoop store fuel (children ++ pending) budget leaves
      | .leaf _ => throw (invalid "Tree v2 internal descriptor names a leaf")

def collectLeafRefs (store : ChunkStore) (root : TreeV2Root) (budget : TraversalBudget) :
    Except ChunkError (List RangeRef × TraversalBudget) := do
  validateRootShape root
  let (leaves, budget) ← collectLoop hashBytes store (maxVisitedNodes + 1) root.child.toList budget []
  validateRanges leaves 0
  let total ← sumFileCount leaves
  reject (total ≠ root.totalFiles) "Tree v2 root total does not match its ranges"
  return (leaves, budget)

def loadLeaf (store : ChunkStore) (leaf : RangeRef) (budget : TraversalBudget) :
    Except ChunkError (List FileEntry × TraversalBudget) := do
  let budget ← budget.node 0
  match ← loadNode hashBytes store leaf with
  | .leaf entries =>
    let budget ← budget.addEntries entries.length
    return (entries, budget)
  | .internal _ _ => throw (invalid "Tree v2 leaf descriptor names an internal node")

def loadLeaves (store : ChunkStore) : List RangeRef → TraversalBudget →
    Except ChunkError (List FileEntry × TraversalBudget)
  | [], budget => .ok ([], budget)
  | leaf :: leaves, budget => do
    let (entries, budget) ← loadLeaf hashBytes store leaf budget
    let (rest, budget) ← loadLeaves store leaves budget
    return (entries ++ rest, budget)

def loadLeafSpan (store : ChunkStore) (leaves : List RangeRef) (budget : TraversalBudget) :
    Except ChunkError (List FileEntry × TraversalBudget) := do
  leaves.forM fun leaf => do
    validateRange leaf
    reject (leaf.height ≠ 0) "Tree v2 leaf span contains an internal node"
  let (output, budget) ← loadLeaves hashBytes store leaves budget
  validateEntries output
  return (output, budget)

def loadAllEntries (store : ChunkStore) (root : TreeV2Root) :
    Except ChunkError (List FileEntry) := do
  let (leaves, budget) ← collectLeafRefs hashBytes store root ⟨0, 0⟩
  let (entries, _) ← loadLeafSpan hashBytes store leaves budget
  reject (UInt64.ofNat entries.length ≠ root.totalFiles)
    "Tree v2 root total does not match its leaves"
  return entries

/-- What the loop of `update_tree` leaves: the replaced entries with their segments, the leaves
behind the replaced span, and the counters. -/
structure Resync where
  entries : List FileEntry
  segments : List Segment
  rest : List RangeRef
  leavesLoaded : Nat
  entriesLoaded : Nat

def resynchronized (entries : List FileEntry) (segments : List Segment) (last : RangeRef) : Bool :=
  segments.getLast?.any fun segment =>
    segment.stableEnd && entries[segment.stop - 1]?.map FileEntry.path = some last.maxPath

/-- The loop of `update_tree`: `last` is the last replaced leaf, and `rest` stands behind it. -/
def resyncLoop (store : ChunkStore) : RangeRef → List RangeRef → List FileEntry →
    TraversalBudget → Nat → Nat → Except ChunkError Resync
  | _, [], entries, _, leavesLoaded, entriesLoaded => do
    let segments ← segmentEntries entries
    return ⟨entries, segments, [], leavesLoaded, entriesLoaded⟩
  | last, next :: rest, entries, budget, leavesLoaded, entriesLoaded => do
    let segments ← segmentEntries entries
    if resynchronized entries segments last then
      return ⟨entries, segments, next :: rest, leavesLoaded, entriesLoaded⟩
    else
      let (appended, budget) ← loadLeafSpan hashBytes store [next] budget
      resyncLoop store next rest (entries ++ appended) budget (leavesLoaded + 1)
        (entriesLoaded + appended.length)

/-- `partition_point` of the leaves that end before `path`. -/
def leavesBefore (leaves : List RangeRef) (path : String) : Nat :=
  (leaves.takeWhile (·.maxPath < path)).length

def operationPaths (changed : List FileEntry) (deleted : List String) : List String :=
  sortBy id (changed.map FileEntry.path ++ deleted)

/-- The part of `update_tree` behind the first look at the leaves. -/
def updateLeaves (store : ChunkStore) (leaves : List RangeRef) (budget : TraversalBudget)
    (firstPath lastPath : String) (changed : List FileEntry) (deleted : List String) :
    Except ChunkError (TreeV2Root × UpdateStats × List Bytes) := do
  let start := min (leavesBefore leaves firstPath) (leaves.length - 1)
  let stop := max (min (leavesBefore leaves lastPath) (leaves.length - 1)) start
  match leaves.drop stop with
  | last :: rest =>
    let (loaded, budget) ← loadLeafSpan hashBytes store ((leaves.take (stop + 1)).drop start) budget
    let resync ← resyncLoop hashBytes store last rest (mergePrefixEntries loaded changed deleted)
      budget (stop - start + 1) loaded.length
    let replacement ← storeLeaves hashBytes resync.entries resync.segments
    let nextLeaves := leaves.take start ++ replacement.map Prod.fst ++ resync.rest
    validateRanges nextLeaves 0
    let (next, internalNodes, chunks) ← rootFromLeaves hashBytes nextLeaves
    return (next, ⟨resync.leavesLoaded, resync.entriesLoaded, replacement.length, internalNodes,
      resync.leavesLoaded, resync.rest.isEmpty⟩, replacement.map Prod.snd ++ chunks)
  -- `leaves[end]` is in bounds.
  | [] => throw (invalid "index out of bounds")

/-- The root, the counters and the chunks put, in order. -/
def updateTree (store : ChunkStore) (root : TreeV2Root) (changed : List FileEntry)
    (deleted : List String) : Except ChunkError (TreeV2Root × UpdateStats × List Bytes) := do
  validateRootShape root
  changed.forM fun entry => validatePath entry.path
  deleted.forM validatePath
  match (operationPaths changed deleted).head?, (operationPaths changed deleted).getLast? with
  | some firstPath, some lastPath =>
    let (leaves, budget) ← collectLeafRefs hashBytes store root ⟨0, 0⟩
    if leaves.isEmpty then
      let merged := mergePrefixEntries [] changed deleted
      let segments ← segmentEntries merged
      let (next, chunks) ← buildTree hashBytes merged
      return (next, ⟨0, 0, segments.length, 0, 0, true⟩, chunks)
    else updateLeaves hashBytes store leaves budget firstPath lastPath changed deleted
  | _, _ => return (root, .zero, [])

end

end Obsetync.TreeV2

import Obsetync.Entry
import Obsetync.Wire

namespace Obsetync.TreeV2
open Wire

def leafMagic : Bytes := asBytes "OVL2"
def internalMagic : Bytes := asBytes "OVI2"
def rootMagic : Bytes := asBytes "OVR2"
def leafHeaderBytes : Nat := 8
def internalHeaderBytes : Nat := 12
def treeVersion : UInt32 := 2
def minLeafEntries : Nat := 128
def maxLeafEntries : Nat := 1024
def minLeafBytes : Nat := 32 * 1024
def maxNodeBytes : Nat := 256 * 1024
def maxPathBytes : Nat := 4096
def maxTreeDepth : UInt16 := 16
def maxVisitedNodes : Nat := 1000000
def maxLoadedEntries : Nat := 10000000
def leafAnchorMask : UInt64 := 0x7f
def minInternalChildren : Nat := 32
def maxInternalChildren : Nat := 256
def internalAnchorMask : UInt64 := 0x1f

structure RangeRef where
  minPath : String
  maxPath : String
  hash : FileHash
  fileCount : UInt64
  serializedBytes : UInt32
  /-- Zero names a leaf; every internal level increments it by one. -/
  height : UInt16
  deriving DecidableEq

structure TreeV2Root where
  version : UInt32
  totalFiles : UInt64
  child : Option RangeRef
  deriving DecidableEq

inductive V2Node
  | leaf (entries : List FileEntry)
  | internal (childHeight : UInt16) (children : List RangeRef)
  deriving DecidableEq

def invalid (message : String) : ChunkError := .deserialize message

/-- `if bad { return Err(invalid(message)) }`. -/
def reject (bad : Bool) (message : String) : Except ChunkError Unit :=
  if bad then .error (invalid message) else .ok ()

def isControl (c : Char) : Bool := c.toNat < 0x20 || 0x7f ≤ c.toNat && c.toNat ≤ 0x9f

def validatePath (path : String) : Except ChunkError Unit := do
  reject (path.isEmpty || maxPathBytes < path.utf8ByteSize || path.toList.head? = some '/')
    "Tree v2 path length is invalid"
  reject (path.toList.contains '\\' || path.toList.any isControl ||
      (path.toList.splitOn '/').any fun segment =>
        segment = [] || segment = ['.'] || segment = ['.', '.'])
    "unsafe Tree v2 vault-relative path"

def validateEntries (entries : List FileEntry) : Except ChunkError Unit := do
  reject (maxLoadedEntries < entries.length) "Tree v2 exceeds the entry limit"
  entries.forM fun entry => validatePath entry.path
  reject (anyPair (fun a b => b.path ≤ a.path) entries) "Tree v2 entries are not strictly ordered"

def validateRange (range : RangeRef) : Except ChunkError Unit := do
  validatePath range.minPath
  validatePath range.maxPath
  reject (range.maxPath < range.minPath || range.fileCount = 0 ||
      maxLoadedEntries < range.fileCount.toNat ||
      range.height = 0 && maxLeafEntries < range.fileCount.toNat ||
      range.serializedBytes = 0 || maxNodeBytes < range.serializedBytes.toNat ||
      maxTreeDepth < range.height)
    "Tree v2 range descriptor is invalid"

def validateRanges (ranges : List RangeRef) (expectedHeight : UInt16) :
    Except ChunkError Unit := do
  ranges.forM fun range => do
    reject (range.height ≠ expectedHeight) "Tree v2 range height is inconsistent"
    validateRange range
  reject (anyPair (fun a b => b.minPath ≤ a.maxPath || b.maxPath ≤ a.maxPath) ranges)
    "Tree v2 ranges overlap or are unordered"

def validateRootShape (root : TreeV2Root) : Except ChunkError Unit := do
  reject (root.version ≠ treeVersion) "unsupported Tree v2 root version"
  match root.child with
  | none => reject (root.totalFiles ≠ 0) "Tree v2 root shape is inconsistent"
  | some child =>
    reject (!(0 < root.totalFiles && child.fileCount = root.totalFiles &&
      child.height ≤ maxTreeDepth)) "Tree v2 root shape is inconsistent"
    validateRange child

def leafRecordLen (entry : FileEntry) : Nat := 2 + entry.path.utf8ByteSize + 32 + 8 + 8

def rangeRecordLen (range : RangeRef) : Nat :=
  2 + 2 + range.minPath.utf8ByteSize + range.maxPath.utf8ByteSize + 32 + 8 + 4

def encodeLeafRecord (entry : FileEntry) : Bytes :=
  leBytes 2 entry.path.utf8ByteSize ++ asBytes entry.path ++ entry.hash.val ++
    leBytes 8 entry.mtimeMs.toNat ++ leBytes 8 entry.sizeBytes.toNat

def encodeLeaf (entries : List FileEntry) : Except ChunkError Bytes := do
  validateEntries entries
  reject (maxLeafEntries < entries.length) "Tree v2 leaf exceeds the entry cap"
  reject (maxNodeBytes < leafHeaderBytes + (entries.map leafRecordLen).sum)
    "Tree v2 leaf exceeds the byte cap"
  return leafMagic ++ leBytes 4 entries.length ++ entries.flatMap encodeLeafRecord

def rangeRecord (range : RangeRef) : Bytes :=
  leBytes 2 range.minPath.utf8ByteSize ++ leBytes 2 range.maxPath.utf8ByteSize ++
    asBytes range.minPath ++ asBytes range.maxPath ++ range.hash.val ++
    leBytes 8 range.fileCount.toNat ++ leBytes 4 range.serializedBytes.toNat

def encodeRangeRef (range : RangeRef) : Except ChunkError Bytes := do
  validateRange range
  reject (2 ^ 16 ≤ range.minPath.utf8ByteSize) "Tree v2 minimum path is too long"
  reject (2 ^ 16 ≤ range.maxPath.utf8ByteSize) "Tree v2 maximum path is too long"
  return rangeRecord range

def encodeInternal (childHeight : UInt16) (children : List RangeRef) :
    Except ChunkError Bytes := do
  reject (children.isEmpty || maxInternalChildren < children.length)
    "Tree v2 internal child count is invalid"
  validateRanges children childHeight
  reject (maxNodeBytes < internalHeaderBytes + (children.map rangeRecordLen).sum)
    "Tree v2 internal node exceeds the byte cap"
  let records ← children.mapM encodeRangeRef
  return internalMagic ++ leBytes 2 childHeight.toNat ++ leBytes 2 0 ++
    leBytes 4 children.length ++ records.flatten

/-- The bytes a root is hashed over; an invalid child would panic. -/
def TreeV2Root.hashInput (root : TreeV2Root) : Bytes :=
  rootMagic ++ leBytes 4 root.version.toNat ++ leBytes 8 root.totalFiles.toNat ++
    match root.child with
    | some child => 1 :: leBytes 2 child.height.toNat ++ (encodeRangeRef child).toOption.getD []
    | none => [0]

def TreeV2Root.hash (hashBytes : Bytes → FileHash) (root : TreeV2Root) : FileHash :=
  hashBytes root.hashInput

def truncated : ChunkError := invalid "Tree v2 node is truncated"

def readHash (message : String) : Reader ChunkError FileHash := do
  let raw ← take truncated 32
  if h : raw.length = 32 then return ⟨raw, h⟩ else throw (invalid message)

def readStr (length : Nat) (message : String) : Reader ChunkError String := do
  let raw ← take truncated length
  ask (match fromUtf8 raw with
    | some path => .ok path
    | none => .error (invalid message))

def decodeLeafRecord : Reader ChunkError FileEntry := do
  let pathLen ← uint truncated 2
  ask (reject (pathLen = 0 || maxPathBytes < pathLen) "Tree v2 leaf path length is invalid")
  let path ← readStr pathLen "Tree v2 leaf path is not UTF-8"
  ask (validatePath path)
  let hash ← readHash "Tree v2 leaf hash is truncated"
  let mtimeMs ← uint truncated 8
  let sizeBytes ← uint truncated 8
  return ⟨path, hash, UInt64.ofNat mtimeMs, UInt64.ofNat sizeBytes⟩

def decodeRangeRef (height : UInt16) : Reader ChunkError RangeRef := do
  let minLen ← uint truncated 2
  let maxLen ← uint truncated 2
  ask (reject (minLen = 0 || maxPathBytes < minLen || maxLen = 0 || maxPathBytes < maxLen)
    "Tree v2 range path length is invalid")
  let minPath ← readStr minLen "Tree v2 minimum path is not UTF-8"
  let maxPath ← readStr maxLen "Tree v2 maximum path is not UTF-8"
  let hash ← readHash "Tree v2 range hash is truncated"
  let fileCount ← uint truncated 8
  let serializedBytes ← uint truncated 4
  let range : RangeRef :=
    ⟨minPath, maxPath, hash, UInt64.ofNat fileCount, UInt32.ofNat serializedBytes, height⟩
  ask (validateRange range)
  return range

def decodeLeaf : Reader ChunkError (List FileEntry) := do
  let _ ← take truncated 4
  let count ← uint truncated 4
  ask (reject (count = 0 || maxLeafEntries < count) "Tree v2 leaf entry count is invalid")
  many decodeLeafRecord count

def decodeInternal : Reader ChunkError (UInt16 × List RangeRef) := do
  let _ ← take truncated 4
  let childHeight ← uint truncated 2
  ask (reject (maxTreeDepth ≤ UInt16.ofNat childHeight) "Tree v2 internal header is invalid")
  let reserved ← uint truncated 2
  ask (reject (reserved ≠ 0) "Tree v2 internal header is invalid")
  let count ← uint truncated 4
  ask (reject (count = 0 || maxInternalChildren < count) "Tree v2 internal child count is invalid")
  let children ← many (decodeRangeRef (UInt16.ofNat childHeight)) count
  return (UInt16.ofNat childHeight, children)

/-- A reader run on a whole buffer, with `Reader::finish` behind it. -/
def readAll (r : Reader ChunkError α) (bytes : Bytes) : Except ChunkError α := do
  let (a, rest) ← r bytes
  reject (!rest.isEmpty) "Tree v2 node has trailing bytes"
  return a

def decodeNode (bytes : Bytes) : Except ChunkError V2Node := do
  reject (maxNodeBytes < bytes.length || bytes.length < leafHeaderBytes)
    "Tree v2 node length is invalid"
  if bytes.take 4 = leafMagic then
    let entries ← readAll decodeLeaf bytes
    validateEntries entries
    return .leaf entries
  else if bytes.take 4 = internalMagic then
    reject (bytes.length < internalHeaderBytes) "Tree v2 internal header is truncated"
    let (childHeight, children) ← readAll decodeInternal bytes
    validateRanges children childHeight
    return .internal childHeight children
  else throw (invalid "unknown Tree v2 node magic")

def checkedAdd (a b : UInt64) : Except ChunkError UInt64 :=
  if a.toNat + b.toNat < 2 ^ 64 then .ok (a + b) else .error (invalid "Tree v2 file count overflow")

def sumFileCount (ranges : List RangeRef) : Except ChunkError UInt64 :=
  ranges.foldlM (fun sum range => checkedAdd sum range.fileCount) 0

def validateDescriptorForNode (range : RangeRef) (serializedBytes : Nat) (node : V2Node) :
    Except ChunkError Unit := do
  reject (2 ^ 32 ≤ serializedBytes) "Tree v2 child length does not fit its descriptor"
  match node with
  | .leaf entries =>
    reject (!(entries.head?.map FileEntry.path = some range.minPath &&
        entries.getLast?.map FileEntry.path = some range.maxPath &&
        range.fileCount = UInt64.ofNat entries.length &&
        range.serializedBytes = UInt32.ofNat serializedBytes && range.height = 0))
      "Tree v2 child descriptor does not match its bytes"
  | .internal childHeight children =>
    let fileCount ← sumFileCount children
    reject (!(children.head?.map RangeRef.minPath = some range.minPath &&
        children.getLast?.map RangeRef.maxPath = some range.maxPath &&
        range.fileCount = fileCount && range.serializedBytes = UInt32.ofNat serializedBytes &&
        range.height = childHeight + 1))
      "Tree v2 child descriptor does not match its bytes"

section Store

variable (hashBytes : Bytes → FileHash)

def validateLoadedNode (range : RangeRef) (bytes : Bytes) : Except ChunkError V2Node := do
  validateRange range
  reject (bytes.length ≠ range.serializedBytes.toNat || hashBytes bytes ≠ range.hash)
    "Tree v2 child failed content-address validation"
  let node ← decodeNode bytes
  validateDescriptorForNode range bytes.length node
  return node

def loadNode (store : ChunkStore) (range : RangeRef) : Except ChunkError V2Node := do
  validateRange range
  let bytes ← store.get range.hash
  validateLoadedNode hashBytes range bytes

/-- The descriptor of a leaf and the chunk that is put for it. -/
def storeLeaf (entries : List FileEntry) : Except ChunkError (RangeRef × Bytes) := do
  let bytes ← encodeLeaf entries
  reject (2 ^ 32 ≤ bytes.length) "Tree v2 leaf length does not fit its descriptor"
  match entries.head?, entries.getLast? with
  | some first, some last =>
    return (⟨first.path, last.path, hashBytes bytes, UInt64.ofNat entries.length,
      UInt32.ofNat bytes.length, 0⟩, bytes)
  -- `entries[0]` of an empty slice would panic.
  | _, _ => throw (invalid "index out of bounds")

def storeInternal (childHeight : UInt16) (children : List RangeRef) :
    Except ChunkError (RangeRef × Bytes) := do
  let bytes ← encodeInternal childHeight children
  reject (2 ^ 32 ≤ bytes.length) "Tree v2 internal length does not fit its descriptor"
  let fileCount ← sumFileCount children
  match children.head?, children.getLast? with
  | some first, some last =>
    return (⟨first.minPath, last.maxPath, hashBytes bytes, fileCount, UInt32.ofNat bytes.length,
      childHeight + 1⟩, bytes)
  | _, _ => throw (invalid "index out of bounds")

end Store

end Obsetync.TreeV2

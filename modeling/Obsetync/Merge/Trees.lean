import Obsetync.VersionedRoot
import Obsetync.Merge.Text

namespace Obsetync
open Keyed Fallible

structure MergeResult (Root : Type) where
  newRoot : Root
  fileConflicts : List FileConflict
  autoResolvedCount : Nat
  textMergedCount : Nat

abbrev VersionedMergeResult := MergeResult VersionedRoot

/-- What a merge puts: chunks, in order, and the content store it leaves. -/
structure Written where
  chunks : List Bytes
  content : Content

def TreeV1.RootNode.child (root : TreeV1.RootNode) (pre : String) : Option FileHash :=
  (latest Prod.fst root.children pre).map Prod.snd

section

variable (codec : TreeV1.NodeCodec) (fromLines : String → String → TextDiff)
  (hashBytes : Bytes → FileHash) (store : ChunkStore)

/-- What `merge_trees` pushes for one top-level prefix. -/
def mergePrefix : Option FileHash → Option FileHash → Option FileHash → Except ChunkError MergeState
  | some base, some a, some b =>
    if a = base ∧ b = base then do
      return ⟨← TreeV1.loadAllEntries codec store base, [], 0, []⟩
    else if b = base then return .pick (← TreeV1.loadAllEntries codec store a)
    else if a = base then return .pick (← TreeV1.loadAllEntries codec store b)
    else
      return mergeEntryLists (← TreeV1.loadAllEntries codec store base)
        (← TreeV1.loadAllEntries codec store a) (← TreeV1.loadAllEntries codec store b)
  | none, some a, none => return .pick (← TreeV1.loadAllEntries codec store a)
  | none, none, some b => return .pick (← TreeV1.loadAllEntries codec store b)
  | none, some a, some b =>
    return mergeEntryLists [] (← TreeV1.loadAllEntries codec store a)
      (← TreeV1.loadAllEntries codec store b)
  | some base, none, some b =>
    if b = base then return .empty else return .pick (← TreeV1.loadAllEntries codec store b)
  | some base, some a, none =>
    if a = base then return .empty else return .pick (← TreeV1.loadAllEntries codec store a)
  | _, none, none => return .empty

def allPrefixes (base a b : TreeV1.RootNode) : List String :=
  TreeV1.distinct ((base.children ++ a.children ++ b.children).map Prod.fst)

def mergePrefixes (base a b : TreeV1.RootNode) : Except ChunkError MergeState := do
  let states ← (allPrefixes base a b).mapM fun pre =>
    mergePrefix codec store (base.child pre) (a.child pre) (b.child pre)
  return states.foldl (· ++ ·) .empty

def mergeTrees (nowMs : UInt64) (content : Content) (base a b : TreeV1.RootNode) :
    Except ChunkError (MergeResult TreeV1.RootNode × Written) := do
  let state ← mergePrefixes codec store base a b
  let r := resolve fromLines hashBytes content state
  let (root, put) := TreeV1.buildTree codec hashBytes nowMs r.merged a.vaultId "server"
  return (⟨{ root with parentHash := some (a.hash hashBytes) }, r.conflicts, state.autoResolved,
    r.textMerged⟩, ⟨put, r.content⟩)

/-- `merge_versioned_trees` from where the roots are not all v1. -/
def mergeFlat (nowMs : UInt64) (content : Content) (base a b : VersionedRoot) :
    Except ChunkError (VersionedMergeResult × Written) := do
  let baseEntries ← loadAllEntries codec hashBytes store base
  let aEntries ← loadAllEntries codec hashBytes store a
  let bEntries ← loadAllEntries codec hashBytes store b
  let state := mergeEntryLists baseEntries aEntries bEntries
  let r := resolve fromLines hashBytes content state
  let (root, put) ← buildRoot codec hashBytes nowMs r.merged a.version a.vaultId "server"
  return (⟨root.setHistoryMetadata 0 (some (a.hash hashBytes)) "server", r.conflicts,
    state.autoResolved, r.textMerged⟩, ⟨put, r.content⟩)

def mergeVersionedTrees (nowMs : UInt64) (content : Content) (base a b : VersionedRoot) :
    Except ChunkError (VersionedMergeResult × Written) :=
  match base, a, b with
  | .v1 base, .v1 a, .v1 b => do
    let (result, written) ← mergeTrees codec fromLines hashBytes store nowMs content base a b
    return (⟨.v1 result.newRoot, result.fileConflicts, result.autoResolvedCount,
      result.textMergedCount⟩, written)
  | base, a, b => mergeFlat codec fromLines hashBytes store nowMs content base a b

end

end Obsetync

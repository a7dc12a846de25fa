import Obsetync.Merge.Agreement
import Obsetync.TreeV1.UnaryCodec
import Obsetync.TreeV2.Canonical

namespace Obsetync
open Keyed Fallible TreeV1 List

/-- Both merges return, their roots load to the same entries, and they report the same conflicts. -/
def MergesAlike (codec : NodeCodec) (hashBytes : Bytes → FileHash) (store : ChunkStore)
    (prefixMerge : Except ChunkError (MergeResult RootNode × Written))
    (flatMerge : Except ChunkError (VersionedMergeResult × Written)) : Prop :=
  ∃ r w r' w' entries, prefixMerge = .ok (r, w) ∧ flatMerge = .ok (r', w') ∧
    loadAllEntries codec hashBytes store (.v1 r.newRoot) = .ok entries ∧
    loadAllEntries codec hashBytes store r'.newRoot = .ok entries ∧
    r.fileConflicts = r'.fileConflicts

def HoldsPut (hashBytes : Bytes → FileHash) (store : ChunkStore)
    (merge : Except ChunkError (MergeResult Root × Written)) : Prop :=
  ∀ r w, merge = .ok (r, w) → store.Holds hashBytes w.chunks

section Samples

open TreeV2 (lengthHash storeOf leafOf leafRoot)

def noDiff (_ _ : String) : TextDiff := ⟨[], [], []⟩

def sampleFile (path : String) (n : Nat) (mtimeMs : UInt64) : FileEntry :=
  ⟨path, lengthHash (List.replicate n 0), mtimeMs, UInt64.ofNat n⟩

def oneFile (e : FileEntry) : VaultState := ⟨[e], List.pairwise_singleton _ _⟩

def sampleV1 (state : VaultState) : RootNode × List Bytes :=
  buildTree unaryCodec lengthHash 0 state.entries "v" "d"

def sampleV2 (e : FileEntry) : VersionedRoot := .v2 ⟨"v", 0, leafRoot [e] e.path e.path, none, "d"⟩

theorem stored_sampleV1 (h : store.Holds lengthHash (sampleV1 state).2) :
    Stored unaryCodec lengthHash store state (.v1 (sampleV1 state).1) :=
  ⟨_, ⟨0, VersionedRoot.treeV1, "v", "d", _, 0, none, "d", rfl, rfl⟩, h⟩

theorem stored_sampleV2 (hb : buildRoot unaryCodec lengthHash 0 [e] VersionedRoot.treeV2 "v" "d" =
      .ok (sampleV2 e, [leafOf [e]])) (h : store.Holds lengthHash [leafOf [e]]) :
    Stored unaryCodec lengthHash store (oneFile e) (sampleV2 e) :=
  ⟨_, ⟨0, VersionedRoot.treeV2, "v", "d", _, 0, none, "d", hb, rfl⟩, h⟩

theorem holdsPut_of_map {merge : Except ChunkError (MergeResult Root × Written)}
    (h : merge.map (·.2.chunks) = .ok put) (hput : store.Holds hashBytes put) :
    HoldsPut hashBytes store merge := by
  intro r w hmerge
  rw [hmerge] at h
  cases h
  exact hput

def untouched : FileEntry := sampleFile "a" 1 0

def touched : FileEntry := sampleFile "a" 1 1

def edited : FileEntry := sampleFile "a" 2 1

def sampleStore (e : FileEntry) : ChunkStore :=
  storeOf lengthHash ((sampleV1 (oneFile untouched)).2 ++ (sampleV1 (oneFile e)).2 ++
    [leafOf [untouched]])

theorem sampleFile_storable (hp : TreeV2.validatePath path = .ok ()) :
    (oneFile (sampleFile path n mtimeMs)).Storable := by
  constructor
  · exact Nat.le_of_ble_eq_true rfl
  · intro e he
    rw [mem_singleton.1 he]
    exact hp

theorem untouched_built : buildRoot unaryCodec lengthHash 0 [untouched] VersionedRoot.treeV2 "v" "d" =
    .ok (sampleV2 untouched, [leafOf [untouched]]) := by
  decide +kernel

theorem sampleStore_chunks (h : TreeV2.NoCollision lengthHash
      ((sampleV1 (oneFile untouched)).2 ++ (sampleV1 (oneFile e)).2 ++ [leafOf [untouched]])) :
    (sampleStore e).Holds lengthHash (sampleV1 (oneFile untouched)).2 ∧
      (sampleStore e).Holds lengthHash (sampleV1 (oneFile e)).2 ∧
      (sampleStore e).Holds lengthHash [leafOf [untouched]] := by
  have hholds : (sampleStore e).Holds lengthHash ((sampleV1 (oneFile untouched)).2 ++
      (sampleV1 (oneFile e)).2 ++ [leafOf [untouched]]) := h.holds
  refine ⟨fun c hc => hholds c ?_, fun c hc => hholds c ?_, fun c hc => hholds c ?_⟩
  · exact mem_append_left _ (mem_append_left _ hc)
  · exact mem_append_left _ (mem_append_right _ hc)
  · exact mem_append_right _ hc

theorem sampleStore_holds (h : TreeV2.NoCollision lengthHash
      ((sampleV1 (oneFile untouched)).2 ++ (sampleV1 (oneFile e)).2 ++ [leafOf [untouched]])) :
    Stored unaryCodec lengthHash (sampleStore e) (oneFile untouched)
        (.v1 (sampleV1 (oneFile untouched)).1) ∧
      Stored unaryCodec lengthHash (sampleStore e) (oneFile e) (.v1 (sampleV1 (oneFile e)).1) ∧
      Stored unaryCodec lengthHash (sampleStore e) (oneFile untouched) (sampleV2 untouched) := by
  obtain ⟨hold, hnew, hleaf⟩ := sampleStore_chunks h
  exact ⟨stored_sampleV1 hold, stored_sampleV1 hnew, stored_sampleV2 untouched_built hleaf⟩

theorem touched_noCollision : TreeV2.NoCollision lengthHash ((sampleV1 (oneFile untouched)).2 ++
    (sampleV1 (oneFile touched)).2 ++ [leafOf [untouched]]) := by
  unfold TreeV2.NoCollision
  decide +kernel

theorem touched_flat : (mergeVersionedTrees unaryCodec noDiff lengthHash (sampleStore touched) 0
    (fun _ => none) (sampleV2 untouched) (.v1 (sampleV1 (oneFile touched)).1)
    (sampleV2 untouched)).map (fun p => loadAllEntries unaryCodec lengthHash
      (sampleStore touched) p.1.newRoot) = .ok (.ok [untouched]) := by
  decide +kernel

theorem edited_noCollision : TreeV2.NoCollision lengthHash ((sampleV1 (oneFile untouched)).2 ++
    (sampleV1 (oneFile edited)).2 ++ [leafOf [untouched]]) := by
  unfold TreeV2.NoCollision
  decide +kernel

theorem edited_holdsPut : HoldsPut lengthHash (sampleStore edited)
      (mergeTrees unaryCodec noDiff lengthHash (sampleStore edited) 0 (fun _ => none)
        (sampleV1 (oneFile untouched)).1 (sampleV1 (oneFile edited)).1
        (sampleV1 (oneFile untouched)).1) ∧
    HoldsPut lengthHash (sampleStore edited)
      (mergeVersionedTrees unaryCodec noDiff lengthHash (sampleStore edited) 0 (fun _ => none)
        (sampleV2 untouched) (.v1 (sampleV1 (oneFile edited)).1) (sampleV2 untouched)) := by
  obtain ⟨-, hholds, -⟩ := sampleStore_chunks edited_noCollision
  exact ⟨holdsPut_of_map (by decide +kernel) hholds, holdsPut_of_map (by decide +kernel) hholds⟩

end Samples

end Obsetync

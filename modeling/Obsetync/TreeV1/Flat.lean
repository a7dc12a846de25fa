import Obsetync.TreeV1.Load

namespace Obsetync.TreeV1
open Keyed Fallible
open List hiding lookup

section

variable (codec : NodeCodec) (store : ChunkStore)

def entriesAt (hash : FileHash) : List FileEntry :=
  match loadAllEntries codec store hash with
  | .ok entries => entries
  | .error _ => []

def under (root : RootNode) (pre : String) : List FileEntry :=
  match lookup Prod.fst root.children pre with
  | some child => entriesAt codec store child.2
  | none => []

def RootNode.prefixes (root : RootNode) : List String := root.children.map Prod.fst

def flat (root : RootNode) : List FileEntry := root.children.flatMap fun child =>
  entriesAt codec store child.2

/-- A root of a vault: its directories are there in order, each with its own files and no others,
and the files are counted. -/
structure Sound (root : RootNode) : Prop where
  ordered : Sorted Prod.fst root.children
  loads : ∀ child ∈ root.children,
    loadAllEntries codec store child.2 = .ok (entriesAt codec store child.2)
  sorted : ∀ child ∈ root.children, Sorted FileEntry.path (entriesAt codec store child.2)
  placed : ∀ child ∈ root.children, ∀ e ∈ entriesAt codec store child.2,
    topLevelPrefix e.path = child.1
  total : root.totalFiles = UInt64.ofNat (flat codec store root).length

end

variable {codec : NodeCodec} {hashBytes : Bytes → FileHash} {store : ChunkStore} {root : RootNode}

theorem entriesAt_eq {hash : FileHash} (h : loadAllEntries codec store hash = .ok entries) :
    entriesAt codec store hash = entries := by
  rw [entriesAt, h]

theorem under_of_mem (hs : Sorted Prod.fst root.children) {child : String × FileHash}
    (h : child ∈ root.children) : under codec store root child.1 = entriesAt codec store child.2 := by
  rw [under, hs.lookup_of_mem h]

theorem under_of_not_mem (h : pre ∉ root.prefixes) : under codec store root pre = [] := by
  have hnone : lookup Prod.fst root.children pre = none := by
    rw [lookup_eq_none]
    intro child hmem heq
    exact h (heq ▸ mem_map_of_mem hmem)
  rw [under, hnone]

theorem under_cases (root : RootNode) (pre : String) : under codec store root pre = [] ∨
      ∃ child ∈ root.children, child.1 = pre ∧
        under codec store root pre = entriesAt codec store child.2 := by
  rw [under]
  cases h : lookup Prod.fst root.children pre with
  | none => exact .inl rfl
  | some child => exact .inr ⟨child, (mem_of_lookup h).1, (mem_of_lookup h).2, rfl⟩

theorem Sound.prefixes_sorted (h : Sound codec store root) : Sorted id root.prefixes :=
  pairwise_map.2 h.ordered

theorem Sound.flat_eq (h : Sound codec store root) :
    flat codec store root = root.prefixes.flatMap (under codec store root) := by
  rw [flat, RootNode.prefixes, flatMap_map]
  exact flatMap_congr fun child hmem => (under_of_mem h.ordered hmem).symm

theorem Sound.under_placed (h : Sound codec store root) (he : e ∈ under codec store root pre) :
    topLevelPrefix e.path = pre := by
  rcases under_cases root pre with hnil | ⟨child, hmem, rfl, heq⟩
  · rw [hnil] at he
    cases he
  · rw [heq] at he
    exact h.placed child hmem e he

theorem Sound.under_sorted (h : Sound codec store root) (pre : String) :
    Sorted FileEntry.path (under codec store root pre) := by
  rcases under_cases root pre with hnil | ⟨child, hmem, -, heq⟩
  · rw [hnil]
    exact List.Pairwise.nil
  · rw [heq]
    exact h.sorted child hmem

theorem Sound.flat_nodup (h : Sound codec store root) :
    ((flat codec store root).map FileEntry.path).Nodup := by
  rw [h.flat_eq]
  exact nodup_flatMap_keys h.prefixes_sorted h.under_sorted fun pre e he => h.under_placed he

theorem Sound.lookup_flat (h : Sound codec store root) (q : String) :
    lookup FileEntry.path (flat codec store root) q =
      lookup FileEntry.path (under codec store root (topLevelPrefix q)) q := by
  rw [h.flat_eq, lookup_flatMap fun pre e he => h.under_placed he]
  by_cases hmem : topLevelPrefix q ∈ root.prefixes
  · rw [if_pos hmem]
  · rw [if_neg hmem, under_of_not_mem hmem]
    rfl

theorem Sound.mem_flat (h : Sound codec store root) :
    e ∈ flat codec store root ↔ e ∈ under codec store root (topLevelPrefix e.path) := by
  rw [h.flat_eq, mem_flatMap]
  constructor
  · rintro ⟨pre, -, he⟩
    rwa [h.under_placed he]
  · intro he
    refine ⟨_, ?_, he⟩
    by_contra hmem
    rw [under_of_not_mem hmem] at he
    cases he

theorem Sound.flat_perm (h : Sound codec store root) {pres : List String} (hnd : pres.Nodup)
    (hall : ∀ pre ∈ root.prefixes, pre ∈ pres) :
    (pres.flatMap (under codec store root)).Perm (flat codec store root) := by
  have hflat : (flat codec store root).Nodup := List.Nodup.of_map _ h.flat_nodup
  refine (perm_ext_iff_of_nodup ?_ hflat).2 fun e => ?_
  · rw [nodup_flatMap]
    refine ⟨fun pre _ => (h.under_sorted pre).nodup, hnd.imp fun {p q} hne e hp hq => ?_⟩
    exact hne ((h.under_placed hp).symm.trans (h.under_placed hq))
  · rw [h.mem_flat, mem_flatMap]
    constructor
    · rintro ⟨pre, -, he⟩
      rwa [h.under_placed he]
    · intro he
      refine ⟨_, hall _ ?_, he⟩
      by_contra hmem
      rw [under_of_not_mem hmem] at he
      cases he

theorem Sound.sorted_flat (h : Sound codec store root) :
    Sorted FileEntry.path (sortBy FileEntry.path (flat codec store root)) :=
  sortBy_sorted h.flat_nodup

theorem sound_buildTree (hc : codec.Lawful) (hs : Sorted FileEntry.path entries)
    (hlen : entries.length ≤ maxLoadedEntries)
    (hstore : store.Holds hashBytes (buildTree codec hashBytes nowMs entries vaultId deviceId).2) :
    Sound codec store (buildTree codec hashBytes nowMs entries vaultId deviceId).1 ∧
      (flat codec store (buildTree codec hashBytes nowMs entries vaultId deviceId).1).Perm
        entries := by
  generalize hroot : (buildTree codec hashBytes nowMs entries vaultId deviceId).1 = root
  have hchild : ∀ child ∈ root.children,
      loadAllEntries codec store child.2 = .ok (group entries child.1) := by
    intro child hmem
    rw [← hroot, children_eq hs, mem_filterMap] at hmem
    obtain ⟨pre, -, hpre⟩ := hmem
    obtain ⟨hash, hhash, rfl⟩ := Option.map_eq_some_iff.1 hpre
    exact loadAllEntries_child hc hs ((length_filter_le _ _).trans hlen) hstore hhash
  have hat : ∀ child ∈ root.children, entriesAt codec store child.2 = group entries child.1 :=
    fun child hmem => entriesAt_eq (hchild child hmem)
  have hpres : root.children.map Prod.fst = prefixes entries := by
    rw [← hroot, buildTree, map_map, builtGroups, map_map]
    exact map_id _
  have hflat : flat codec store root = (prefixes entries).flatMap (group entries) := by
    rw [flat, ← hpres, flatMap_map]
    exact flatMap_congr hat
  have hperm : (flat codec store root).Perm entries := by
    rw [hflat]
    exact flatMap_group_perm hs
  refine ⟨⟨?_, ?_, ?_, ?_, ?_⟩, hperm⟩
  · rw [← hroot]
    exact children_sorted hs
  · intro child hmem
    rw [hchild child hmem, hat child hmem]
  · intro child hmem
    rw [hat child hmem]
    exact group_sorted hs _
  · intro child hmem e he
    rw [hat child hmem] at he
    exact (mem_group.1 he).2
  · rw [hperm.length_eq, ← hroot]
    rfl

end Obsetync.TreeV1

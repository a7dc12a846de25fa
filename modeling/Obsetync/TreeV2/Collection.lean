import Obsetync.ChunkStore
import Obsetync.TreeV2.Reachability

namespace Obsetync.TreeV2
open ChunkStore (MemoryChunkState Buffer)
open Fallible List

/-- The memory store, as the tree reads it. -/
def memoryStore (s : MemoryChunkState) : ChunkStore where
  get hash := match s.find hash with
    | some chunk => .ok chunk.buffer.bytes
    | none => .error (.notFound hash)

/-- What becomes of the memory store while a root is in use: chunks are put, one that is there only
with its own bytes, baselines come and go, and a sweep keeps what was marked from the root. -/
inductive Evolves (hashBytes : Bytes → FileHash) (root : TreeV2Root) (old : MemoryChunkState) :
    MemoryChunkState → Prop
  | start : Evolves hashBytes root old old
  | insert {s : MemoryChunkState} {hash : FileHash} {buffer : Buffer} :
      Evolves hashBytes root old s →
      (∀ chunk, s.find hash = some chunk → chunk.buffer.bytes = buffer.bytes) →
      Evolves hashBytes root old (s.insertChunk hash buffer)
  | baseline {s t : MemoryChunkState} : Evolves hashBytes root old s → t.map = s.map →
      Evolves hashBytes root old t
  | retain {s : MemoryChunkState} : Evolves hashBytes root old s →
      reachableHashes hashBytes (memoryStore s) root = .ok marked →
      (∀ hash ∈ marked, reachable hash = true) →
      Evolves hashBytes root old (s.retainChunks reachable).2

section
variable {s t : MemoryChunkState} {hash : FileHash} {reachable : FileHash → Bool}

theorem get_memoryStore : (memoryStore s).get hash = .ok bytes ↔
    ∃ chunk, s.find hash = some chunk ∧ chunk.buffer.bytes = bytes := by
  rw [memoryStore]
  dsimp only
  cases s.find hash <;> simp

theorem find_sweep (h : s.find hash = some chunk) (hmem : reachable hash = true) :
    (s.sweep reachable).find hash = some chunk :=
  Assoc.find_of_mem (s.retained reachable).property (mem_filter.2 ⟨Assoc.mem_of_find h, hmem⟩)

theorem Denotes.keep (h : Denotes hashBytes store rs ls es n)
    (hbelow : ∀ r ∈ rs, Below hashBytes store top r)
    (hget : ∀ r, Below hashBytes store top r → ∀ bytes, store.get r.hash = .ok bytes →
      store'.get r.hash = .ok bytes) : Denotes hashBytes store' rs ls es n := by
  have hload {r : RangeRef} {node : V2Node} (hr : Below hashBytes store top r)
      (h : loadNode hashBytes store r = .ok node) : loadNode hashBytes store' r = .ok node := by
    simp only [loadNode, bind_eq_ok, exists_unit] at h ⊢
    obtain ⟨hrange, bytes, hbytes, hvalid⟩ := h
    exact ⟨hrange, bytes, hget r hr bytes hbytes, hvalid⟩
  induction h with
  | nil => exact .nil
  | leaf hz hl _ ih =>
    rw [forall_mem_cons] at hbelow
    exact .leaf hz (hload hbelow.1 hl) (ih hbelow.2)
  | node hz hl _ ih =>
    rw [forall_mem_cons] at hbelow
    exact .node hz (hload hbelow.1 hl)
      (ih (forall_mem_append.2 ⟨fun c hc => .child hbelow.1 hl hc, hbelow.2⟩))

theorem loads_of_keep (h : loadAllEntries hashBytes (memoryStore s) root = .ok es)
    (hfind : ∀ r, Below hashBytes (memoryStore s) root.child.toList r → ∀ chunk,
      s.find r.hash = some chunk → ∃ chunk', t.find r.hash = some chunk' ∧
        chunk'.buffer.bytes = chunk.buffer.bytes) :
    loadAllEntries hashBytes (memoryStore t) root = .ok es := by
  obtain ⟨hshape, ls, n, hd, hrest⟩ := loadAllEntries_eq_ok.1 h
  refine loadAllEntries_eq_ok.2 ⟨hshape, ls, n, hd.keep (fun r => .here) ?_, hrest⟩
  intro r hr bytes hbytes
  obtain ⟨chunk, hchunk, rfl⟩ := get_memoryStore.1 hbytes
  exact get_memoryStore.2 (hfind r hr chunk hchunk)

end

/-- However chunks are put and swept, a tree that loads goes on to load the same entries. A sweep of
what its root does not reach leaves exactly the chunks that it does. -/
theorem tree_survives_sweeps (hashBytes : Bytes → FileHash) (root : TreeV2Root)
    (old s : MemoryChunkState) (h : Evolves hashBytes root old s) :
    (∀ es, loadAllEntries hashBytes (memoryStore old) root = .ok es →
      loadAllEntries hashBytes (memoryStore s) root = .ok es) ∧
    ∀ marked, reachableHashes hashBytes (memoryStore s) root = .ok marked →
      s.activeBaseline = none → ∀ hash,
      ((s.retainChunks (· ∈ marked)).2.resident hash = true ↔ hash ∈ marked) := by
  constructor
  · intro es hes
    induction h with
    | start => exact hes
    | @insert s hash buffer _ hsame ih =>
      refine loads_of_keep ih fun r _ chunk hchunk => ?_
      rw [ChunkStore.find_insertChunk]
      split
      · next heq => exact ⟨_, rfl, (hsame chunk (heq ▸ hchunk)).symm⟩
      · exact ⟨chunk, hchunk, rfl⟩
    | @baseline s t _ hmap ih =>
      rw [memoryStore] at ih ⊢
      simp only [MemoryChunkState.find, hmap] at ih ⊢
      exact ih
    | @retain marked reachable s _ hmarked hreach ih =>
      obtain ⟨-, hmem, -⟩ := V2ReachabilityCursor.tracks_of_reachableHashes hmarked
      rw [MemoryChunkState.retainChunks]
      split
      · exact ih
      · exact loads_of_keep ih fun r hr chunk hchunk =>
          ⟨chunk, find_sweep hchunk (hreach _ ((hmem _).2 ⟨r, hr, rfl⟩)), rfl⟩
  · intro marked hmarked hfree hash
    obtain ⟨-, hmem, hloads, -⟩ := V2ReachabilityCursor.tracks_of_reachableHashes hmarked
    rw [MemoryChunkState.retainChunks, if_neg (by simp [hfree])]
    dsimp only
    rw [MemoryChunkState.resident, Option.isSome_iff_exists]
    constructor
    · rintro ⟨chunk, hchunk⟩
      exact of_decide_eq_true (mem_filter.1 (Assoc.mem_of_find hchunk)).2
    · intro h
      obtain ⟨r, hr, rfl⟩ := (hmem hash).1 h
      obtain ⟨node, hnode⟩ := hloads r hr
      obtain ⟨-, bytes, hget, -⟩ := decodeNode_of_loadNode hnode
      obtain ⟨chunk, hchunk, -⟩ := get_memoryStore.1 hget
      exact ⟨chunk, find_sweep hchunk (decide_eq_true h)⟩

/-- The tree of one leaf, and a chunk that is no node of it. -/
def orphanStore : MemoryChunkState :=
  (MemoryChunkState.new.insertChunk (lengthHash (leafOf [single]))
    ⟨leafOf [single], _, le_rfl⟩).insertChunk (lengthHash [0]) ⟨[0], 1, le_rfl⟩

theorem tree_survives_sweeps_orphan :
    let root := leafRoot [single] "note.md" "note.md"
    let swept := (orphanStore.retainChunks (· = lengthHash (leafOf [single]))).2
    swept.resident (lengthHash [0]) = false ∧
      loadAllEntries lengthHash (memoryStore swept) root = .ok [single] := by
  intro root swept
  have hmarks : (reachableHashes lengthHash (memoryStore orphanStore) root).toOption =
      some {lengthHash (leafOf [single])} := by
    decide +kernel
  cases hmarked : reachableHashes lengthHash (memoryStore orphanStore) root with
  | error error =>
    rw [hmarked] at hmarks
    cases hmarks
  | ok marked =>
    rw [hmarked] at hmarks
    cases hmarks
    have hswept : Evolves lengthHash root orphanStore swept :=
      .retain .start hmarked fun hash hhash => decide_eq_true (Finset.mem_singleton.1 hhash)
    refine ⟨by decide +kernel, ?_⟩
    exact (tree_survives_sweeps lengthHash root orphanStore swept hswept).1 [single]
      (by decide +kernel)

end Obsetync.TreeV2

import Obsetync.TreeV1.Update
import Obsetync.TreeV2.Divergence

namespace Obsetync.TreeV1
open Keyed Fallible List
open TreeV2 (storeOf repeated repeated_lt NoCollision)

variable {codec : NodeCodec} {hashBytes : Bytes → FileHash} {store : ChunkStore}

theorem loadLoop_too_many (h : ∀ hash ∈ hashes, ∃ bytes leaf, store.get hash = .ok bytes ∧
      codec.decodeLeaf bytes = .ok leaf) (hfuel : hashes.length ≤ fuel)
    (hfit : entries.length ≤ maxLoadedEntries)
    (hlen : maxLoadedEntries < (entries ++ hashes.flatMap (leafAt codec store)).length) :
    loadLoop codec store fuel hashes entries =
      .error (.deserialize "tree has too many entries") := by
  induction hashes generalizing fuel entries with
  | nil =>
    rw [flatMap_nil, append_nil] at hlen
    exact absurd hlen (not_lt.2 hfit)
  | cons hash hashes ih =>
    obtain ⟨bytes, leaf, hget, hdec⟩ := h hash mem_cons_self
    obtain ⟨fuel, rfl⟩ : ∃ k, fuel = k + 1 := Nat.exists_eq_add_one.2 (Nat.zero_lt_of_lt hfuel)
    rw [loadLoop, hget]
    dsimp only [bind, Except.bind]
    rw [hdec]
    change (if maxLoadedEntries < entries.length + leaf.length then _ else _) = _
    split_ifs with hmany
    · rfl
    · rw [flatMap_cons, leafAt_eq hget hdec, ← append_assoc] at hlen
      apply ih _ (Nat.le_of_succ_le_succ hfuel) _ hlen
      · intro hash' hmem
        exact h hash' (mem_cons_of_mem _ hmem)
      · rw [length_append]
        exact not_lt.1 hmany

def indexHash (leaves : List Bytes) (bytes : Bytes) : FileHash :=
  ⟨Wire.leBytes 32 (leaves.idxOf bytes), Wire.leBytes_length⟩

theorem indexHash_inj (hlen : leaves.length < 256 ^ 32)
    (h : indexHash leaves c = indexHash leaves d) : leaves.idxOf c = leaves.idxOf d := by
  have hval : Wire.leBytes 32 (leaves.idxOf c) = Wire.leBytes 32 (leaves.idxOf d) :=
    congrArg Subtype.val h
  rw [← Wire.ofLe_leBytes (lt_of_le_of_lt idxOf_le_length hlen), hval,
    Wire.ofLe_leBytes (lt_of_le_of_lt idxOf_le_length hlen)]

theorem indexHash_noCollision (hlen : leaves.length < 256 ^ 32) (hnode : node ∉ leaves) :
    NoCollision (indexHash leaves) (leaves ++ [node]) := by
  have hlast : leaves.idxOf node = leaves.length := idxOf_eq_length hnode
  intro c hc d hd heq
  have hindex := indexHash_inj hlen heq
  rcases mem_append.1 hc with hc | hc
  · exact (idxOf_inj hc).1 hindex
  · rcases mem_append.1 hd with hd | hd
    · exact ((idxOf_inj hd).1 hindex.symm).symm
    · rw [mem_singleton.1 hc, mem_singleton.1 hd]

def leavesOf (codec : NodeCodec) (entries : List FileEntry) : List Bytes :=
  (chunks targetChunkEntries entries).map (leafChunk codec)

def nodeOf (codec : NodeCodec) (hashBytes : Bytes → FileHash) (pre : String)
    (entries : List FileEntry) : Bytes :=
  internalNode codec (childLabels hashBytes pre (leavesOf codec entries))

theorem buildGroup_of_large (pre : String) (h : targetChunkEntries < entries.length) :
    buildGroup codec hashBytes pre entries = (hashBytes (nodeOf codec hashBytes pre entries),
      leavesOf codec entries ++ [nodeOf codec hashBytes pre entries]) := by
  have hne : entries ≠ [] := by
    rintro rfl
    cases h
  rcases buildGroup_cases pre hne with
    ⟨leaf, hleaf, -⟩ | hgroup
  · obtain ⟨c, hc, -⟩ := map_eq_singleton_iff.1 hleaf
    have hflat := flatten_chunks (n := targetChunkEntries) (by decide) entries
    have hle : c.length ≤ targetChunkEntries :=
      length_of_mem_chunks (l := entries) (by rw [hc]; exact mem_cons_self)
    rw [hc, flatten_cons, flatten_nil, append_nil] at hflat
    rw [← hflat] at h
    exact absurd hle (not_le.2 h)
  · exact hgroup

theorem loadAllEntries_too_many (hc : codec.Lawful) (pre : String)
    (hs : Sorted FileEntry.path entries) (hmany : maxLoadedEntries < entries.length)
    (hle : entries.length ≤ 2 * maxLoadedEntries)
    (hdec : ∀ children, codec.decodeInternal (codec.encodeInternal children) = .ok children)
    (hstore : store.Holds hashBytes
      (leavesOf codec entries ++ [nodeOf codec hashBytes pre entries])) :
    loadAllEntries codec store (hashBytes (nodeOf codec hashBytes pre entries)) =
      .error (.deserialize "tree has too many entries") := by
  have hleaf : ∀ c ∈ chunks targetChunkEntries entries,
      store.get (hashBytes (leafChunk codec c)) = .ok (leafChunk codec c) := by
    intro c hmem
    exact hstore _ (mem_append_left _ (mem_map_of_mem hmem))
  have hperm := (@sortBy_perm _ _ _ Prod.fst
    (l := childLabels hashBytes pre (leavesOf codec entries))).map Prod.snd
  have hmap : (leavesOf codec entries).map hashBytes =
      (chunks targetChunkEntries entries).map (hashBytes ∘ leafChunk codec) := map_map
  rw [map_snd_childLabels, hmap] at hperm
  have hflatMap : (((chunks targetChunkEntries entries).map (hashBytes ∘ leafChunk codec)).flatMap
      (leafAt codec store)) = entries := by
    rw [flatMap_map, flatMap_congr (g := id), flatMap_id, flatten_chunks (by decide)]
    intro c hmem
    exact leafAt_eq (hleaf c hmem) (decodeLeaf_chunk hc hs hmem)
  have hflat := hperm.flatMap_right (leafAt codec store)
  rw [hflatMap] at hflat
  have hcount := length_chunks_mul_le targetChunkEntries entries
  have hnode := (@loadLoop_node _ _ _ 999999) hc (hdec _)
    (hstore _ (mem_append_right _ mem_cons_self))
  rw [loadAllEntries]
  change (loadLoop codec store (999999 + 1) [_] [] >>= _) = _
  rw [nodeOf, hnode, loadLoop_too_many]
  · rfl
  · intro hash hmem
    obtain ⟨c, hchunk, rfl⟩ := mem_map.1 (hperm.mem_iff.1 hmem)
    exact ⟨_, c, hleaf c hchunk, decodeLeaf_chunk hc hs hchunk⟩
  · rw [hperm.length_eq, length_map]
    simp only [targetChunkEntries, maxLoadedEntries] at hcount hle ⊢
    omega
  · exact Nat.zero_le _
  · rw [nil_append, hflat.length_eq]
    exact hmany

def crowd (n : Nat) : List FileEntry := (List.range n).map fun k => repeated 'a' (k + 1)

theorem length_crowd (n : Nat) : (crowd n).length = n := by
  rw [crowd, length_map, length_range]

theorem crowd_sorted (n : Nat) : Sorted FileEntry.path (crowd n) := by
  apply pairwise_map.2
  apply pairwise_lt_range.imp
  intro j k hlt
  exact repeated_lt 'a' (Nat.succ_lt_succ hlt)

theorem crowd_nodup : ((crowd n).map FileEntry.path).Nodup :=
  pairwise_map.2 ((crowd_sorted n).imp fun hlt => hlt.ne)

theorem topLevelPrefix_crowd (he : e ∈ crowd n) : topLevelPrefix e.path = "" := by
  obtain ⟨k, -, rfl⟩ := mem_map.1 he
  have hlist : (repeated 'a' (k + 1)).path.toList = List.replicate (k + 1) 'a' :=
    String.toList_ofList
  rw [topLevelPrefix, hlist, if_neg]
  simp [mem_replicate]

theorem group_crowd : group (crowd n) "" = crowd n := by
  rw [group, filter_eq_self]
  intro e he
  exact decide_eq_true (topLevelPrefix_crowd he)

theorem nodeOf_not_mem (hashBytes : Bytes → FileHash) :
    nodeOf unaryCodec hashBytes pre entries ∉ leavesOf unaryCodec entries := by
  intro hmem
  obtain ⟨c, -, hc⟩ := mem_map.1 hmem
  cases hc

theorem prefixes_crowd (hn : 0 < n) : prefixes (crowd n) = [""] := by
  have hsort : Sorted id [""] := pairwise_singleton _ _
  apply (distinct_spec _).1.eq_of_perm hsort
  apply (perm_ext_iff_of_nodup (distinct_spec _).1.nodup hsort.nodup).2
  intro pre
  rw [← prefixes, ← group_ne_nil, mem_singleton]
  constructor
  · intro hne
    obtain ⟨e, he⟩ := exists_mem_of_ne_nil _ hne
    obtain ⟨hmem, rfl⟩ := mem_group.1 he
    exact topLevelPrefix_crowd hmem
  · rintro rfl hnil
    rw [← length_crowd n, ← group_crowd, hnil] at hn
    exact absurd hn (lt_irrefl 0)

theorem length_leavesOf (h : entries.length ≤ 2 * maxLoadedEntries) :
    (leavesOf codec entries).length < 256 ^ 32 := by
  have hcount := length_chunks_mul_le targetChunkEntries entries
  rw [leavesOf, length_map]
  apply lt_of_le_of_lt (b := 20000) _ (by decide)
  simp only [targetChunkEntries, maxLoadedEntries] at h hcount ⊢
  omega

def crowdHash (n : Nat) : Bytes → FileHash := indexHash (leavesOf unaryCodec (crowd n))

def crowdNode (n : Nat) : Bytes := nodeOf unaryCodec (crowdHash n) "" (crowd n)

def crowdStore (n : Nat) : ChunkStore :=
  storeOf (crowdHash n) (leavesOf unaryCodec (crowd n) ++ [crowdNode n])

def crowdRoot (n : Nat) : RootNode := (buildTree unaryCodec (crowdHash n) 0 (crowd n) "v" "d").1

theorem crowdStore_holds (hn : n ≤ 2 * maxLoadedEntries) :
    (crowdStore n).Holds (crowdHash n) (leavesOf unaryCodec (crowd n) ++ [crowdNode n]) :=
  (indexHash_noCollision (length_leavesOf ((length_crowd n).trans_le hn)) (nodeOf_not_mem _)).holds

theorem buildTree_crowd (hn : targetChunkEntries < n) :
    (crowdRoot n).children = [("", crowdHash n (crowdNode n))] ∧
      (buildTree unaryCodec (crowdHash n) 0 (crowd n) "v" "d").2 =
        leavesOf unaryCodec (crowd n) ++ [crowdNode n] := by
  have hgroups : builtGroups unaryCodec (crowdHash n) (crowd n) =
      [("", crowdHash n (crowdNode n), leavesOf unaryCodec (crowd n) ++ [crowdNode n])] := by
    rw [builtGroups, prefixes_crowd (Nat.zero_lt_of_lt hn), map_singleton, group_crowd,
      (crowd_sorted n).sortBy_self, buildGroup_of_large "" (hn.trans_eq (length_crowd n).symm)]
    rfl
  rw [crowdRoot, buildTree, hgroups]
  exact ⟨rfl, append_nil _⟩

theorem updateTree_error {hash : FileHash} (hchildren : root.children = [("", hash)])
    (hpre : changedPrefixes changed deleted = [""])
    (hload : loadAllEntries codec store hash = .error e) :
    updateTree codec hashBytes store nowMs root changed deleted = .error (.chunk e) := by
  have hsearch : search Prod.fst [("", hash)] "" = .ok 0 := by
    rw [search, takeWhile_cons_of_neg (by simp)]
    rfl
  rw [updateTree, hpre, updateLoop, updatePrefix, hchildren, hsearch]
  change (((loadAllEntries codec store hash).mapError UpdateError.chunk >>= _) >>= _) >>= _ = _
  rw [hload]
  rfl

theorem updateTree_crowd {n : Nat} (hmany : maxLoadedEntries < n) (hle : n ≤ 2 * maxLoadedEntries) :
    updateTree unaryCodec (crowdHash n) (crowdStore n) 0 (crowdRoot n) [repeated 'b' 1] [] =
      .error (.chunk (.deserialize "tree has too many entries")) := by
  have hlarge : targetChunkEntries < n := lt_trans (by decide) hmany
  apply updateTree_error (buildTree_crowd hlarge).1 (by decide +kernel)
  apply loadAllEntries_too_many unaryCodec_lawful "" (crowd_sorted n) _ _ unaryCodec_internal
    (crowdStore_holds hle)
  · exact hmany.trans_eq (length_crowd n).symm
  · exact (length_crowd n).trans_le hle

/-- A vault with 10,000,001 files at its root is built, but not updated. -/
theorem updateTree_stops_at_limit : ((crowd 10000001).map FileEntry.path).Nodup ∧
    (crowdStore 10000001).Holds (crowdHash 10000001)
      (buildTree unaryCodec (crowdHash 10000001) 0 (crowd 10000001) "v" "d").2 ∧
    updateTree unaryCodec (crowdHash 10000001) (crowdStore 10000001) 0
      (buildTree unaryCodec (crowdHash 10000001) 0 (crowd 10000001) "v" "d").1
      [repeated 'b' 1] [] = .error (.chunk (.deserialize "tree has too many entries")) := by
  refine ⟨crowd_nodup, ?_, updateTree_crowd (by decide) (by decide)⟩
  rw [(buildTree_crowd (by decide)).2]
  exact crowdStore_holds (by decide)

end Obsetync.TreeV1

import Obsetync.TreeV1.Tree

namespace Obsetync.TreeV1
open Keyed Fallible
open List hiding lookup

variable {codec : NodeCodec} {hashBytes : Bytes → FileHash} {store : ChunkStore}

def leafAt (codec : NodeCodec) (store : ChunkStore) (hash : FileHash) : List FileEntry :=
  match store.get hash >>= codec.decodeLeaf with
  | .ok entries => entries
  | .error _ => []

theorem leafAt_eq {hash : FileHash} (hget : store.get hash = .ok bytes) (hdec : codec.decodeLeaf bytes = .ok leaf) :
    leafAt codec store hash = leaf := by
  have h : (store.get hash >>= codec.decodeLeaf) = .ok leaf := by
    rw [hget]
    exact hdec
  rw [leafAt, h]

theorem loadLoop_leaves {hashes : List FileHash}
    (h : ∀ hash ∈ hashes, ∃ bytes leaf, store.get hash = .ok bytes ∧
      codec.decodeLeaf bytes = .ok leaf)
    (hfuel : hashes.length ≤ fuel)
    (hlen : (entries ++ hashes.flatMap (leafAt codec store)).length ≤ maxLoadedEntries) :
    loadLoop codec store fuel hashes entries =
      .ok (entries ++ hashes.flatMap (leafAt codec store)) := by
  induction hashes generalizing fuel entries with
  | nil => cases fuel <;> simp [loadLoop]
  | cons hash hashes ih =>
    obtain ⟨bytes, leaf, hget, hdec⟩ := h hash mem_cons_self
    obtain ⟨fuel, rfl⟩ : ∃ k, fuel = k + 1 := Nat.exists_eq_add_one.2 (Nat.zero_lt_of_lt hfuel)
    rw [flatMap_cons, leafAt_eq hget hdec, ← append_assoc] at hlen ⊢
    have hfit : ¬ maxLoadedEntries < entries.length + leaf.length := by
      rw [length_append, length_append] at hlen
      omega
    rw [loadLoop, hget]
    change (match codec.decodeLeaf bytes with | .ok leaf => _ | .error _ => _) = _
    rw [hdec]
    change (if _ then _ else _) = _
    rw [if_neg hfit]
    apply ih _ (Nat.le_of_succ_le_succ hfuel) hlen
    intro hash' hmem
    exact h hash' (mem_cons_of_mem _ hmem)

theorem leafChunk_eq (h : Sorted FileEntry.path entries) :
    leafChunk codec entries = codec.encodeLeaf entries := by
  rw [leafChunk, h.sortBy_self]

theorem map_snd_childLabels (pre : String) (leaves : List Bytes) :
    (childLabels hashBytes pre leaves).map Prod.snd = leaves.map hashBytes := by
  apply ext_getElem
  · simp [childLabels]
  · intro i _ _
    simp [childLabels]

theorem decodeLeaf_chunk (hc : codec.Lawful) (hs : Sorted FileEntry.path entries)
    (h : c ∈ chunks targetChunkEntries entries) : codec.decodeLeaf (leafChunk codec c) = .ok c := by
  have hflat : (chunks targetChunkEntries entries).flatten = entries := flatten_chunks (by decide) _
  have hsub : c.Sublist entries := hflat ▸ sublist_flatten_of_mem h
  rw [leafChunk_eq (List.Pairwise.sublist hsub hs)]
  exact hc.leaf c (length_of_mem_chunks h)

theorem loadLoop_chunks (hc : codec.Lawful) (hs : Sorted FileEntry.path entries)
    (hlen : entries.length ≤ maxLoadedEntries) (hget : ∀ c ∈ chunks targetChunkEntries entries,
      store.get (hashBytes (leafChunk codec c)) = .ok (leafChunk codec c))
    (hfuel : hashes.length ≤ fuel)
    (hperm : hashes.Perm ((chunks targetChunkEntries entries).map fun c =>
      hashBytes (leafChunk codec c))) :
    ∃ loaded, loadLoop codec store fuel hashes [] = .ok loaded ∧ entries.Perm loaded := by
  have hflatMap : (((chunks targetChunkEntries entries).map fun c =>
      hashBytes (leafChunk codec c)).flatMap (leafAt codec store)) = entries := by
    rw [flatMap_map, flatMap_congr (g := id), flatMap_id, flatten_chunks (by decide)]
    intro c hmem
    exact leafAt_eq (hget c hmem) (decodeLeaf_chunk hc hs hmem)
  have hp := hperm.flatMap_right (leafAt codec store)
  rw [hflatMap] at hp
  have hall : ∀ hash ∈ hashes, ∃ bytes leaf, store.get hash = .ok bytes ∧
      codec.decodeLeaf bytes = .ok leaf := by
    intro hash hmem
    obtain ⟨c, hchunk, rfl⟩ := mem_map.1 (hperm.mem_iff.1 hmem)
    exact ⟨_, c, hget c hchunk, decodeLeaf_chunk hc hs hchunk⟩
  refine ⟨_, loadLoop_leaves hall hfuel ?_, ?_⟩
  · rw [nil_append, hp.length_eq]
    exact hlen
  · rw [nil_append]
    exact hp.symm

theorem loadAllEntries_of_loop {hash : FileHash} (hs : Sorted FileEntry.path entries)
    (h : ∃ loaded, loadLoop codec store maxVisitedNodes [hash] [] = .ok loaded ∧
      entries.Perm loaded) : loadAllEntries codec store hash = .ok entries := by
  obtain ⟨loaded, hloop, hperm⟩ := h
  rw [loadAllEntries, hloop]
  exact congrArg Except.ok (hs.eq_sortBy hperm)

theorem buildLeafChunks_eq (hne : entries ≠ []) : buildLeafChunks codec entries =
      (chunks targetChunkEntries entries).map (leafChunk codec) := by
  have hflat : (chunks targetChunkEntries entries).flatten = entries := flatten_chunks (by decide) _
  rw [buildLeafChunks]
  apply if_neg
  intro h
  rw [List.isEmpty_iff, map_eq_nil_iff] at h
  rw [h] at hflat
  exact hne hflat.symm

theorem buildGroup_cases (pre : String) (hne : entries ≠ []) :
    let leaves := (chunks targetChunkEntries entries).map (leafChunk codec)
    let node := internalNode codec (childLabels hashBytes pre leaves)
    (∃ leaf, leaves = [leaf] ∧ buildGroup codec hashBytes pre entries = (hashBytes leaf, [leaf])) ∨
      buildGroup codec hashBytes pre entries = (hashBytes node, leaves ++ [node]) := by
  rw [buildGroup, buildLeafChunks_eq hne]
  split
  · next leaf hleaf => exact .inl ⟨leaf, hleaf, rfl⟩
  · exact .inr rfl

theorem loadLoop_node {children : List (String × FileHash)} (hc : codec.Lawful)
    (hdec : codec.decodeInternal (internalNode codec children) = .ok (sortBy Prod.fst children))
    (hget : store.get (hashBytes (internalNode codec children)) =
      .ok (internalNode codec children)) :
    loadLoop codec store (fuel + 1) [hashBytes (internalNode codec children)] [] =
      loadLoop codec store fuel ((sortBy Prod.fst children).map Prod.snd) [] := by
  obtain ⟨e, htag⟩ := hc.tagged (sortBy Prod.fst children)
  rw [internalNode] at hdec
  rw [loadLoop, hget]
  dsimp only [bind, Except.bind, internalNode]
  rw [htag]
  dsimp only
  rw [hdec]
  change loadLoop codec store fuel (_ ++ []) [] = _
  rw [append_nil]

theorem loadAllEntries_buildGroup (hc : codec.Lawful) (pre : String)
    (hs : Sorted FileEntry.path entries) (hne : entries ≠ [])
    (hlen : entries.length ≤ maxLoadedEntries)
    (hstore : store.Holds hashBytes (buildGroup codec hashBytes pre entries).2) :
    loadAllEntries codec store (buildGroup codec hashBytes pre entries).1 = .ok entries := by
  have hmap : ((chunks targetChunkEntries entries).map (leafChunk codec)).map hashBytes =
      (chunks targetChunkEntries entries).map fun c => hashBytes (leafChunk codec c) :=
    map_map
  apply loadAllEntries_of_loop hs
  rcases buildGroup_cases pre hne with
    ⟨leaf, hleaf, hgroup⟩ | hgroup
  · rw [hgroup] at hstore ⊢
    rw [hleaf] at hmap
    apply loadLoop_chunks hc hs hlen
    · intro c hmem
      apply hstore
      rw [← hleaf]
      exact mem_map_of_mem hmem
    · exact Nat.le_of_ble_eq_true rfl
    · rw [← hmap]
      exact List.Perm.refl _
  · rw [hgroup] at hstore ⊢
    have hlabels : (childLabels hashBytes pre
        ((chunks targetChunkEntries entries).map (leafChunk codec))).length =
        (chunks targetChunkEntries entries).length := by
      rw [childLabels, length_mapIdx, length_map]
    have hcount : (chunks targetChunkEntries entries).length * 1000 ≤ 10000000 := by
      have h := length_chunks_mul_le targetChunkEntries entries
      simp only [targetChunkEntries, maxLoadedEntries] at h hlen ⊢
      omega
    have hdec := hc.internal (sortBy Prod.fst (childLabels hashBytes pre
      ((chunks targetChunkEntries entries).map (leafChunk codec))))
      (by rw [sortBy_perm.length_eq, hlabels]; exact hcount)
    have hnode := (@loadLoop_node _ _ _ 999999) hc
      hdec (hstore _ (mem_append_right _ mem_cons_self))
    have hperm := (@sortBy_perm _ _ _ Prod.fst (l := childLabels hashBytes pre
      ((chunks targetChunkEntries entries).map (leafChunk codec)))).map Prod.snd
    rw [map_snd_childLabels, hmap] at hperm
    change ∃ loaded, loadLoop codec store (999999 + 1) [_] [] = .ok loaded ∧ _
    rw [hnode]
    apply loadLoop_chunks hc hs hlen
    · intro c hmem
      exact hstore _ (mem_append_left _ (mem_map_of_mem hmem))
    · rw [hperm.length_eq, length_map]
      omega
    · exact hperm

theorem group_sorted (hs : Sorted FileEntry.path entries) (pre : String) :
    Sorted FileEntry.path (group entries pre) :=
  hs.filter _

theorem group_ne_nil : group entries pre ≠ [] ↔ pre ∈ prefixes entries := by
  rw [prefixes, (distinct_spec _).2, mem_map, group, Ne, filter_eq_nil_iff]
  simp

theorem mem_group : e ∈ group entries pre ↔ e ∈ entries ∧ topLevelPrefix e.path = pre := by
  simp [group]

theorem lookup_group (entries : List FileEntry) (pre q : String) :
    lookup FileEntry.path (group entries pre) q =
      if topLevelPrefix q = pre then lookup FileEntry.path entries q else none := by
  rw [group, lookup_filter_key fun p => decide (topLevelPrefix p = pre)]
  simp

def childHash (codec : NodeCodec) (hashBytes : Bytes → FileHash) (entries : List FileEntry)
    (pre : String) : Option FileHash :=
  if group entries pre = [] then none
  else some (buildGroup codec hashBytes pre (group entries pre)).1

theorem children_eq (hs : Sorted FileEntry.path entries) :
    (buildTree codec hashBytes nowMs entries vaultId deviceId).1.children =
      (prefixes entries).filterMap fun pre =>
        (childHash codec hashBytes entries pre).map (pre, ·) := by
  have hall : ∀ pre ∈ prefixes entries, (childHash codec hashBytes entries pre).map (pre, ·) =
      some (pre, (buildGroup codec hashBytes pre (sortBy FileEntry.path (group entries pre))).1) := by
    intro pre hmem
    rw [childHash, if_neg (group_ne_nil.2 hmem), (group_sorted hs pre).sortBy_self]
    rfl
  rw [filterMap_congr hall, filterMap_eq_map']
  simp [buildTree, builtGroups]

theorem children_sorted (hs : Sorted FileEntry.path entries) :
    Sorted Prod.fst (buildTree codec hashBytes nowMs entries vaultId deviceId).1.children := by
  rw [children_eq hs]
  apply sorted_filterMap (distinct_spec _).1
  intro pre child h
  obtain ⟨hash, -, rfl⟩ := Option.map_eq_some_iff.1 h
  rfl

theorem lookup_children (hs : Sorted FileEntry.path entries) (pre : String) :
    lookup Prod.fst (buildTree codec hashBytes nowMs entries vaultId deviceId).1.children pre =
      (childHash codec hashBytes entries pre).map (pre, ·) := by
  rw [children_eq hs, lookup_filterMap]
  · split_ifs with hmem
    · rfl
    · rw [childHash, if_pos (not_not.1 fun h => hmem (group_ne_nil.1 h))]
      rfl
  · intro pre child h
    obtain ⟨hash, -, rfl⟩ := Option.map_eq_some_iff.1 h
    rfl

theorem loadAllEntries_child (hc : codec.Lawful) (hs : Sorted FileEntry.path entries)
    (hlen : (group entries pre).length ≤ maxLoadedEntries)
    (hstore : store.Holds hashBytes (buildTree codec hashBytes nowMs entries vaultId deviceId).2)
    {hash : FileHash} (h : childHash codec hashBytes entries pre = some hash) :
    loadAllEntries codec store hash = .ok (group entries pre) := by
  rw [childHash] at h
  split_ifs at h with hne
  cases h
  apply loadAllEntries_buildGroup hc pre (group_sorted hs pre) hne hlen
  · intro c hmem
    apply hstore
    rw [buildTree, mem_flatMap]
    refine ⟨(pre, buildGroup codec hashBytes pre (group entries pre)), ?_, hmem⟩
    rw [builtGroups, mem_map]
    exact ⟨pre, group_ne_nil.1 hne, by rw [(group_sorted hs pre).sortBy_self]⟩

theorem loadAllEntries_children (hc : codec.Lawful) (hs : Sorted FileEntry.path entries)
    (hlen : entries.length ≤ maxLoadedEntries)
    (hstore : store.Holds hashBytes (buildTree codec hashBytes nowMs entries vaultId deviceId).2) :
    (buildTree codec hashBytes nowMs entries vaultId deviceId).1.children.mapM
        (fun child => loadAllEntries codec store child.2) =
      .ok ((prefixes entries).map (group entries)) := by
  have hchildren : (buildTree codec hashBytes nowMs entries vaultId deviceId).1.children =
      (prefixes entries).map fun pre =>
        (pre, (buildGroup codec hashBytes pre (sortBy FileEntry.path (group entries pre))).1) := by
    simp [buildTree, builtGroups]
  rw [hchildren, mapM_eq_ok, forall₂_map_left_iff, forall₂_map_right_iff, forall₂_same]
  intro pre hpre
  apply loadAllEntries_child hc hs ((length_filter_le _ _).trans hlen) hstore
  rw [childHash, if_neg (group_ne_nil.2 hpre), (group_sorted hs pre).sortBy_self]

theorem flatMap_group_perm (hs : Sorted FileEntry.path entries) :
    ((prefixes entries).flatMap (group entries)).Perm entries := by
  rw [perm_ext_iff_of_nodup]
  · intro e
    simp only [mem_flatMap, mem_group]
    constructor
    · rintro ⟨pre, -, h, -⟩
      exact h
    · intro h
      exact ⟨_, group_ne_nil.1 (ne_nil_of_mem (mem_group.2 ⟨h, rfl⟩)), h, rfl⟩
  · rw [nodup_flatMap]
    refine ⟨fun pre _ => (group_sorted hs pre).nodup, ?_⟩
    apply (distinct_spec _).1.imp
    intro p q hlt e hp hq
    rw [(mem_group.1 hp).2.symm, (mem_group.1 hq).2.symm] at hlt
    exact lt_irrefl _ hlt
  · exact hs.nodup

end Obsetync.TreeV1

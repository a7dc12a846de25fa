import Obsetync.TreeV2.RoundTrip

namespace Obsetync.TreeV2
open Segmentation Fallible Keyed List

variable {hashBytes : Bytes → FileHash} {store : ChunkStore}

inductive Below (hashBytes : Bytes → FileHash) (store : ChunkStore) (top : List RangeRef) :
    RangeRef → Prop where
  | here : r ∈ top → Below hashBytes store top r
  | child : Below hashBytes store top p → loadNode hashBytes store p = .ok (.internal height children) →
      r ∈ children → Below hashBytes store top r

theorem Denotes.of_mem (h : Denotes hashBytes store rs ls es n) (hr : r ∈ rs) :
    ∃ l e m, Denotes hashBytes store [r] l e m := by
  obtain ⟨pre, post, rfl⟩ := append_of_mem hr
  obtain ⟨-, l, -, e, -, m, -, -, -, -, hd⟩ := Denotes.split h
  obtain ⟨l, -, e, -, m, -, -, -, -, hd, -⟩ := (@Denotes.split _ _ [r]) hd
  exact ⟨l, e, m, hd⟩

theorem Below.denotes (h : Below hashBytes store top r) (hd : Denotes hashBytes store top ls es n) :
    ∃ l e m, Denotes hashBytes store [r] l e m := by
  induction h with
  | here hr => exact hd.of_mem hr
  | @child r p height children _ hload hr ih =>
    obtain ⟨l, e, m, hp⟩ := ih
    cases hp with
    | leaf hz hleaf hrest =>
      rw [hload] at hleaf
      cases hleaf
    | node hz hnode hrest =>
      rw [hload] at hnode
      cases hnode
      rw [append_nil] at hrest
      exact hrest.of_mem hr

theorem Below.loads (h : Below hashBytes store top r) (hd : Denotes hashBytes store top ls es n) :
    r.height ≤ maxTreeDepth ∧ ∃ node, loadNode hashBytes store r = .ok node := by
  obtain ⟨l, e, m, hr⟩ := h.denotes hd
  cases hr with
  | leaf _ hload _ => exact ⟨height_le_of_loadNode hload, _, hload⟩
  | node _ hload _ => exact ⟨height_le_of_loadNode hload, _, hload⟩

theorem rootLevels_below {ranges}
    (h : rootLevels hashBytes fuel ranges emitted chunks = .ok (child, emitted', chunks'))
    (hle : countOf ranges ≤ maxLoadedEntries) :
    (∀ c ∈ chunks, c ∈ chunks') ∧ (store.Holds hashBytes chunks' →
      (∀ r ∈ ranges, Below hashBytes store [child] r) ∧
      ∀ c ∈ chunks', c ∈ chunks ∨ ∃ r, Below hashBytes store [child] r ∧ r.hash = hashBytes c) := by
  induction fuel generalizing ranges emitted chunks with
  | zero =>
    match ranges with
    | [] => cases h
    | [range] =>
      cases h
      exact ⟨fun c hc => hc, fun _ => ⟨fun r hr => .here hr, fun c hc => .inl hc⟩⟩
    | _ :: _ :: _ => cases h
  | succ fuel ih =>
    match ranges with
    | [] => cases h
    | [range] =>
      cases h
      exact ⟨fun c hc => hc, fun _ => ⟨fun r hr => .here hr, fun c hc => .inl hc⟩⟩
    | first :: second :: rest =>
      simp only [rootLevels, bind_eq_ok, exists_unit, reject_eq_ok, decide_eq_false_iff_not,
        UInt16.not_le] at h
      obtain ⟨hh, hv, segments, hseg, parents, hparents, hrec⟩ := h
      have hvr := fun r hr => ((validateRanges_eq_ok.1 hv).1 r hr).2
      have hspec := segmentRanges_spec hvr
      rw [hseg] at hspec
      have hcut : segments.map (·.slice (first :: second :: rest)) =
          internalRule.cut [] (first :: second :: rest) := hspec.slices_eq_cut
      have hp : (internalRule.cut [] (first :: second :: rest)).mapM
          (storeInternal hashBytes first.height) = .ok parents := by
        rw [← hcut, mapM_map]
        exact hparents
      have hflat : (internalRule.cut [] (first :: second :: rest)).flatten = first :: second :: rest :=
        Rule.flatten_cut
      have hcount := countOf_storeInternal hp
      rw [hflat] at hcount
      have hvalid := storeInternal_valid hp hh (hflat.symm ▸ hle)
      obtain ⟨hsub, hbelow⟩ := ih hrec (hcount ▸ hle)
      refine ⟨fun c hc => hsub c (mem_append_left _ hc), fun hstore => ?_⟩
      obtain ⟨htop, hput⟩ := hbelow hstore
      constructor
      · intro r hr
        obtain ⟨slice, hslice, hrs⟩ := mem_flatten.1 (hflat.symm ▸ hr)
        obtain ⟨parent, hparent, hstored, hpos, hcap, -⟩ := mem_left_of_forall₂ hvalid hslice
        have hchunk := hsub parent.2 (mem_append_right _ (mem_map_of_mem hparent))
        exact .child (htop parent.1 (mem_map_of_mem hparent))
          (loadNode_storeInternal hstored hh hpos hcap (hstore _ hchunk)) hrs
      · intro c hc
        rcases hput c hc with hold | hfound
        · rcases mem_append.1 hold with hold | hnew
          · exact .inl hold
          · obtain ⟨parent, hparent, rfl⟩ := mem_map.1 hnew
            obtain ⟨slice, -, hstored, -⟩ := mem_right_of_forall₂ hvalid hparent
            exact .inr ⟨parent.1, htop parent.1 (mem_map_of_mem hparent),
              (storeInternal_eq_ok hstored).2.1⟩
        · exact .inr hfound

theorem validateLoadedNode_of_loadNode (h : loadNode hashBytes store r = .ok node)
    (hget : store.get r.hash = .ok bytes) : validateLoadedNode hashBytes r bytes = .ok node := by
  simp only [loadNode, bind_eq_ok, exists_unit] at h
  obtain ⟨-, bytes', hget', hnode⟩ := h
  rw [hget] at hget'
  cases hget'
  exact hnode

theorem buildTree_below (h : buildTree hashBytes entries = .ok (root, chunks))
    (hstore : store.Holds hashBytes chunks) :
    ∀ c ∈ chunks, ∃ r, Below hashBytes store root.child.toList r ∧ r.hash = hashBytes c := by
  obtain ⟨hv, leaves, hleaves, emitted, nodes, hroot, rfl⟩ := buildTree_eq_ok.1 h
  have hflat : (leafRule.cut [] (sortBy FileEntry.path entries)).flatten =
      sortBy FileEntry.path entries := Rule.flatten_cut
  have hcount := countOf_storeLeaf hleaves
  rw [hflat] at hcount
  have hle : countOf (leaves.map Prod.fst) ≤ maxLoadedEntries := hcount ▸ (validateEntries_eq_ok.1 hv).1
  by_cases hne : (leaves.map Prod.fst).isEmpty
  · rw [rootFromLeaves, if_pos hne] at hroot
    cases hroot
    rw [List.isEmpty_iff, map_eq_nil_iff] at hne
    rw [hne]
    exact forall_mem_nil _
  · rw [rootFromLeaves, if_neg hne] at hroot
    simp only [bind_eq_ok, exists_unit, pure_eq_ok] at hroot
    obtain ⟨-, total, -, ⟨child, emitted', nodes'⟩, hlevels, heq⟩ := hroot
    cases heq
    obtain ⟨hrange, hnode⟩ := (rootLevels_below hlevels hle).2
      fun c hc => hstore c (mem_append_right _ hc)
    intro c hc
    rcases mem_append.1 hc with hc | hc
    · obtain ⟨leaf, hleaf, rfl⟩ := mem_map.1 hc
      obtain ⟨slice, -, hstored⟩ := mem_right_of_forall₂ (mapM_eq_ok.1 hleaves) hleaf
      exact ⟨leaf.1, hrange leaf.1 (mem_map_of_mem hleaf), (storeLeaf_eq_ok hstored).2.2.1⟩
    · exact (hnode c hc).resolve_left not_mem_nil

/-- Entries with distinct valid paths build a tree of allowed depth, each of whose nodes passes the
check of the loader and has a descriptor in the tree, and the tree loads back to the entries. -/
theorem buildTree_faithful (hashBytes : Bytes → FileHash) (entries : List FileEntry)
    (hpaths : ∀ e ∈ entries, validatePath e.path = .ok ()) (hdistinct : (entries.map FileEntry.path).Nodup)
    (hlen : entries.length ≤ maxLoadedEntries) :
    ∃ root chunks, buildTree hashBytes entries = .ok (root, chunks) ∧
      ∀ store : ChunkStore, store.Holds hashBytes chunks →
        (∀ r, Below hashBytes store root.child.toList r →
          r.height ≤ maxTreeDepth ∧ ∃ node, loadNode hashBytes store r = .ok node) ∧
        (∀ c ∈ chunks, ∃ r node, Below hashBytes store root.child.toList r ∧
          validateLoadedNode hashBytes r c = .ok node) ∧
        ∃ loaded, loadAllEntries hashBytes store root = .ok loaded ∧ loaded.Perm entries ∧
          loaded.Pairwise fun a b => a.path < b.path := by
  have hperm : (sortBy FileEntry.path entries).Perm entries := sortBy_perm
  have hv : validateEntries (sortBy FileEntry.path entries) = .ok () :=
    validateEntries_eq_ok.2 ⟨hperm.length_eq ▸ hlen, fun e he => hpaths e (hperm.mem_iff.1 he),
      sortBy_sorted hdistinct⟩
  obtain ⟨root, chunks, hbuild, hshape, hload⟩ := loadAllEntries_buildTree hv
  refine ⟨root, chunks, hbuild, ?_⟩
  intro store hstore
  obtain ⟨-, ls, n, hd, -⟩ := loadAllEntries_eq_ok.1 (hload store hstore)
  refine ⟨fun r hr => hr.loads hd, ?_, _, hload store hstore, hperm, sortBy_sorted hdistinct⟩
  intro c hc
  obtain ⟨r, hr, hhash⟩ := buildTree_below hbuild hstore c hc
  obtain ⟨-, node, hnode⟩ := hr.loads hd
  exact ⟨r, node, hr, validateLoadedNode_of_loadNode hnode (hhash ▸ hstore c hc)⟩

theorem buildTree_faithful_note : ∃ root chunks, buildTree (fun _ => ⟨List.replicate 32 0, rfl⟩)
      [⟨"note.md", ⟨List.replicate 32 1, rfl⟩, 7, 3⟩] = .ok (root, chunks) := by
  obtain ⟨root, chunks, hbuild, -⟩ := buildTree_faithful (fun _ => ⟨List.replicate 32 0, rfl⟩)
    [⟨"note.md", ⟨List.replicate 32 1, rfl⟩, 7, 3⟩] (by decide +kernel) (by decide) (by decide)
  exact ⟨root, chunks, hbuild⟩

end Obsetync.TreeV2

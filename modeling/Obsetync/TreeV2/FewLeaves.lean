import Obsetync.TreeV2.RoundTrip

namespace Obsetync.TreeV2
open Segmentation Fallible Keyed

variable {hashBytes : Bytes → FileHash} {store : ChunkStore}

theorem internalRule_cut_of_few (hne : ranges ≠ []) (hlen : ranges.length < 31)
    (hv : ∀ r ∈ ranges, validateRange r = .ok ()) : internalRule.cut [] ranges = [ranges] := by
  have hsize : internalLimits.size rangeRecordLen ranges < maxNodeBytes := by
    have hle : internalLimits.size rangeRecordLen ranges ≤
        internalLimits.headerBytes + ranges.length * 8240 :=
      SegmentLimits.size_le fun r hr => rangeRecordLen_le_path (hv r hr)
    simp only [internalLimits, internalHeaderBytes, maxNodeBytes] at hle ⊢
    omega
  have hrun : internalRule.run [] ranges = ([], ranges) :=
    SegmentLimits.run_of_small (by decide) (lt_of_lt_of_le hlen (by decide)) hsize
  simp [Rule.cut, hrun, unfinished, hne]

/-- Two leaves that follow each other, stored under one node. -/
structure TwoLeaves (hashBytes : Bytes → FileHash) (l l' : List FileEntry) (r r' parent : RangeRef)
    (chunk chunk' node : Bytes) : Prop where
  valid : validateEntries (l ++ l') = .ok ()
  left : storeLeaf hashBytes l = .ok (r, chunk)
  right : storeLeaf hashBytes l' = .ok (r', chunk')
  above : storeInternal hashBytes 0 [r, r'] = .ok (parent, node)

theorem ranges_of_two (hv : validateEntries (l ++ l') = .ok ())
    (h : storeLeaf hashBytes l = .ok (r, chunk)) (h' : storeLeaf hashBytes l' = .ok (r', chunk')) :
    validateRanges [r, r'] 0 = .ok () ∧ countOf [r, r'] = (l ++ l').length := by
  have hleaves : [l, l'].mapM (storeLeaf hashBytes) = .ok [(r, chunk), (r', chunk')] :=
    mapM_eq_ok.2 (.cons h (.cons h' .nil))
  have hflat : [l, l'].flatten = l ++ l' := by simp
  have hvr := validateRanges_storeLeaf hleaves (hflat ▸ (validateEntries_eq_ok.1 hv).2.2)
  have hcount := countOf_storeLeaf hleaves
  rw [hflat] at hcount
  exact ⟨hvr, hcount⟩

theorem exists_twoLeaves (hv : validateEntries (l ++ l') = .ok ())
    (h : storeLeaf hashBytes l = .ok (r, chunk)) (h' : storeLeaf hashBytes l' = .ok (r', chunk')) :
    ∃ parent node, TwoLeaves hashBytes l l' r r' parent chunk chunk' node := by
  obtain ⟨hvr, hcount⟩ := ranges_of_two hv h h'
  have hle : countOf [r, r'] ≤ maxLoadedEntries := hcount ▸ (validateEntries_eq_ok.1 hv).1
  obtain ⟨parents, hp⟩ := storeInternal_cut hvr hle
  rw [internalRule_cut_of_few (by simp) (by simp)
    fun r hr => ((validateRanges_eq_ok.1 hvr).1 r hr).2] at hp
  cases mapM_eq_ok.1 hp with
  | @cons _ parent _ _ habove _ => exact ⟨parent.1, parent.2, hv, h, h', habove⟩

namespace TwoLeaves

variable {l l' : List FileEntry} (t : TwoLeaves hashBytes l l' r r' parent chunk chunk' node)
include t

theorem rootFromLeaves_eq : rootFromLeaves hashBytes [r, r'] =
    .ok (⟨treeVersion, UInt64.ofNat (l ++ l').length, some parent⟩, 1, [node]) := by
  obtain ⟨hvr, hcount⟩ := ranges_of_two t.valid t.left t.right
  have hzero : r.height = 0 := (storeLeaf_eq_ok t.left).2.2.2.1
  have hlt : (l ++ l').length < 2 ^ 64 :=
    lt_of_le_of_lt (validateEntries_eq_ok.1 t.valid).1 (by decide)
  have hsum : sumFileCount [r, r'] = .ok (UInt64.ofNat (l ++ l').length) :=
    sumFileCount_eq_ok.2 (by rw [hcount, UInt64.toNat_ofNat_of_lt' hlt])
  have hp : (internalRule.cut [] [r, r']).mapM (storeInternal hashBytes r.height) =
      .ok [(parent, node)] := by
    rw [internalRule_cut_of_few (by simp) (by simp)
      fun r hr => ((validateRanges_eq_ok.1 hvr).1 r hr).2, hzero]
    exact mapM_eq_ok.2 (.cons t.above .nil)
  have hlevels : rootLevels hashBytes (maxTreeDepth.toNat + 1) [r, r'] 0 [] =
      .ok (parent, 1, [node]) := by
    rw [rootLevels_turn (hzero ▸ by decide) (hzero.symm ▸ hvr) hp]
    rfl
  rw [rootFromLeaves, if_neg (by simp), hvr]
  change (sumFileCount [r, r'] >>= _) = _
  rw [hsum]
  change (rootLevels hashBytes _ _ _ _ >>= _) = _
  rw [hlevels]
  rfl

theorem buildTree_eq (hcut : leafRule.cut [] (l ++ l') = [l, l']) : buildTree hashBytes (l ++ l') =
    .ok (⟨treeVersion, UInt64.ofNat (l ++ l').length, some parent⟩, [chunk, chunk', node]) := by
  have hself : sortBy FileEntry.path (l ++ l') = l ++ l' :=
    (validateEntries_eq_ok.1 t.valid).2.2.sortBy_self
  have hleaves : [l, l'].mapM (storeLeaf hashBytes) = .ok [(r, chunk), (r', chunk')] :=
    mapM_eq_ok.2 (.cons t.left (.cons t.right .nil))
  rw [buildTree_eq_ok, hself, hcut]
  exact ⟨t.valid, _, hleaves, 1, [node], t.rootFromLeaves_eq, rfl⟩

theorem collectLeafRefs_eq (hstore : store.Holds hashBytes [chunk, chunk', node]) :
    collectLeafRefs hashBytes store ⟨treeVersion, UInt64.ofNat (l ++ l').length, some parent⟩ ⟨0, 0⟩ =
      .ok ([r, r'], ⟨3, 0⟩) := by
  obtain ⟨hvr, hcount⟩ := ranges_of_two t.valid t.left t.right
  have hle : countOf [r, r'] ≤ maxLoadedEntries := hcount ▸ (validateEntries_eq_ok.1 t.valid).1
  have hleaves : [l, l'].mapM (storeLeaf hashBytes) = .ok [(r, chunk), (r', chunk')] :=
    mapM_eq_ok.2 (.cons t.left (.cons t.right .nil))
  obtain ⟨root, emitted, put, hroot, -, hshape, htotal, hdenotes⟩ :=
    rootFromLeaves_ok hvr (by simp) hle
  cases t.rootFromLeaves_eq.symm.trans hroot
  have hd := hdenotes store _ _ _ (fun c hc => hstore c (by simp_all))
    (denotes_storeLeaf hleaves fun c hc => hstore c (by simp at hc ⊢; tauto))
  exact collectLeafRefs_of_denotes hshape hd hvr (sumFileCount_eq_ok.2 htotal) (by decide)

theorem hash_eq : parent.hash = hashBytes node ∧
    node.length = internalHeaderBytes + (rangeRecordLen r + rangeRecordLen r') := by
  obtain ⟨henc, hhash, -⟩ := storeInternal_eq_ok t.above
  exact ⟨hhash, by simpa using encodeInternal_length henc⟩

end TwoLeaves

theorem loadLeafSpan_storeLeaf (h : storeLeaf hashBytes l = .ok (r, chunk))
    (hget : store.get (hashBytes chunk) = .ok chunk) (hn : budget.nodes + 1 ≤ maxVisitedNodes)
    (he : budget.entries + l.length ≤ maxLoadedEntries) : loadLeafSpan hashBytes store [r] budget =
      .ok (l, ⟨budget.nodes + 1, budget.entries + l.length⟩) := by
  have hv := validateRange_eq_ok.2 (validRange_of_storeLeaf h)
  obtain ⟨henc, -, -, hzero, -⟩ := storeLeaf_eq_ok h
  have hvl := (encodeLeaf_eq_ok.1 henc).1
  have hd : Denotes hashBytes store [r] [r] (l ++ []) 1 :=
    .leaf hzero (loadNode_storeLeaf h hget) .nil
  rw [List.append_nil] at hd
  have hleaves := (loadLeaves_eq_ok (by simpa using hzero) ((Nat.le_succ _).trans hn)
    ((Nat.le_add_right _ _).trans he)).2 ⟨hd, hn, he, rfl⟩
  simp only [loadLeafSpan, bind_eq_ok, exists_unit, pure_eq_ok, forM_eq_ok, List.mem_singleton,
    forall_eq, reject_eq_ok]
  exact ⟨⟨hv, by simp [hzero]⟩, _, hleaves, hvl, rfl⟩

theorem mergePrefixEntries_singleton (h : e.path < c.path) :
    mergePrefixEntries [c] [e] [] = [e, c] := by
  have hstates : finalStates [e] [] = [.upsert e] := rfl
  have hlt : (FinalPathState.upsert e).path < c.path := h
  rw [mergePrefixEntries, hstates, zip_of_gt hlt]
  rfl

end Obsetync.TreeV2

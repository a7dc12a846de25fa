import Obsetync.TreeV2.Canonical
import Obsetync.TreeV2.FewLeaves

namespace Obsetync.TreeV2
open Segmentation Fallible Keyed List

variable {hashBytes : Bytes → FileHash}

theorem lengthHash_inj (ha : a.length < 256 ^ 32) (hb : b.length < 256 ^ 32)
    (h : lengthHash a = lengthHash b) : a.length = b.length := by
  have hval : Wire.leBytes 32 a.length = Wire.leBytes 32 b.length := congrArg Subtype.val h
  rw [← Wire.ofLe_leBytes ha, hval, Wire.ofLe_leBytes hb]

theorem leafRule_run_of_small (hlen : l.length < minLeafEntries)
    (hsize : leafHeaderBytes + (l.map leafRecordLen).sum < maxNodeBytes) :
    leafRule.run [] l = ([], l) :=
  SegmentLimits.run_of_small (by decide) hlen hsize

theorem leafRule_cut_of_small (hne : l ≠ []) (hlen : l.length < minLeafEntries)
    (hsize : leafHeaderBytes + (l.map leafRecordLen).sum < maxNodeBytes) :
    leafRule.cut [] l = [l] := by
  simp [Rule.cut, leafRule_run_of_small hlen hsize, unfinished, hne]

theorem leafRule_cut_of_overflow (hne : l ≠ []) (hlen : l.length < minLeafEntries)
    (hsize : leafHeaderBytes + (l.map leafRecordLen).sum < maxNodeBytes) (hx : ∀ x ∈ l'.head?,
      maxNodeBytes < leafHeaderBytes + (l.map leafRecordLen).sum + leafRecordLen x) :
    leafRule.cut [] (l ++ l') = l :: leafRule.cut [] l' := by
  rw [Rule.cut_append, leafRule_run_of_small hlen hsize, nil_append]
  apply Rule.cut_of_not_fits hne
  intro x hmem
  have hover : leafLimits.overflows l.length (leafLimits.size leafRecordLen l) (leafRecordLen x) =
      true := by
    rw [SegmentLimits.overflows, Bool.or_eq_true]
    exact .inr (decide_eq_true (hx x hmem))
  exact congrArg (!·) hover

theorem updateLeaves_between (hec : e.path < c.path) (hr' : r'.maxPath = c.path)
    (hbefore : r.maxPath < e.path)
    (hspan : loadLeafSpan hashBytes store [r'] budget = .ok ([c], budget'))
    (hvalid : validateEntries [e, c] = .ok ()) (hcut : leafRule.cut [] [e, c] = [[e, c]])
    (hleaf : storeLeaf hashBytes [e, c] = .ok (r₂, chunk))
    (hranges : validateRanges [r, r₂] 0 = .ok ())
    (hroot : rootFromLeaves hashBytes [r, r₂] = .ok (root, emitted, nodes)) :
    updateLeaves hashBytes store [r, r'] budget e.path e.path [e] [] =
      .ok (root, ⟨1, 1, 1, emitted, 1, true⟩, chunk :: nodes) := by
  have hcount : leavesBefore [r, r'] e.path = 1 := by
    have hstop : ¬ r'.maxPath < e.path := hr' ▸ hec.not_gt
    rw [leavesBefore, takeWhile_cons, decide_eq_true hbefore, takeWhile_cons, decide_eq_false hstop]
    rfl
  obtain ⟨segments, hsegments, -⟩ := segmentEntries_spec hvalid
  have hleaves : storeLeaves hashBytes [e, c] segments = .ok [(r₂, chunk)] := by
    rw [storeLeaves_eq hsegments, hcut]
    exact mapM_eq_ok.2 (.cons hleaf .nil)
  have hresync : resyncLoop hashBytes store r' [] [e, c] budget' 1 1 =
      .ok ⟨[e, c], segments, [], 1, 1⟩ := by
    rw [resyncLoop, hsegments]
    rfl
  rw [updateLeaves, hcount]
  change (loadLeafSpan hashBytes store [r'] budget >>= _) = _
  rw [hspan]
  change (resyncLoop hashBytes store r' [] (mergePrefixEntries [c] [e] []) budget' 1 1 >>= _) = _
  rw [mergePrefixEntries_singleton hec, hresync]
  change (storeLeaves hashBytes [e, c] segments >>= _) = _
  rw [hleaves]
  change (validateRanges [r, r₂] 0 >>= _) = _
  rw [hranges]
  change (rootFromLeaves hashBytes [r, r₂] >>= _) = _
  rw [hroot]
  rfl

theorem updateTree_between (t : TwoLeaves hashBytes l [c] r r' parent chunk chunk' node)
    (t' : TwoLeaves hashBytes l [e, c] r r₂ parent₂ chunk chunk₂ node₂)
    (hstore : store.Holds hashBytes [chunk, chunk', node])
    (hcut : leafRule.cut [] [e, c] = [[e, c]]) (hbefore : r.maxPath < e.path) :
    updateTree hashBytes store ⟨treeVersion, UInt64.ofNat (l ++ [c]).length, some parent⟩ [e] [] =
      .ok (⟨treeVersion, UInt64.ofNat (l ++ [e, c]).length, some parent₂⟩, ⟨1, 1, 1, 1, 1, true⟩,
        [chunk₂, node₂]) := by
  obtain ⟨-, hpaths, hsort⟩ := validateEntries_eq_ok.1 t'.valid
  have hpair := (pairwise_append.1 hsort).2.1
  have hec : e.path < c.path := (pairwise_cons.1 hpair).1 c mem_cons_self
  have hvalid : validateEntries [e, c] = .ok () :=
    (encodeLeaf_eq_ok.1 (storeLeaf_eq_ok t'.right).1).1
  have hcollect := t.collectLeafRefs_eq hstore
  have hshape : validateRootShape ⟨treeVersion, UInt64.ofNat (l ++ [c]).length, some parent⟩ =
      .ok () := by
    simp only [collectLeafRefs, bind_eq_ok, exists_unit] at hcollect
    exact hcollect.1
  have hr' : r'.maxPath = c.path := by
    obtain ⟨-, a, b, -, hb, rfl⟩ := storeLeaf_iff.1 t.right
    cases hb
    rfl
  have hspan := @loadLeafSpan_storeLeaf _ _ _ _ _ ⟨3, 0⟩ t.right (hstore chunk' (by simp))
    (by decide) (by simp [maxLoadedEntries])
  have hranges := (ranges_of_two t'.valid t'.left t'.right).1
  have hupdate := updateLeaves_between hec hr' hbefore hspan hvalid hcut t'.right hranges
    t'.rootFromLeaves_eq
  have hchanged : [e].forM (fun entry => validatePath entry.path) = .ok () := by
    rw [forM_eq_ok]
    intro x hx
    rw [mem_singleton.1 hx]
    exact hpaths e (by simp)
  have hops : operationPaths [e] [] = [e.path] := rfl
  rw [updateTree, hshape, hchanged, hops]
  change (collectLeafRefs hashBytes store _ _ >>= _) = _
  rw [hcollect]
  exact hupdate

theorem buildTree_between (hs : Sorted FileEntry.path (l ++ [e, c])) :
    buildTree hashBytes (updatedEntries (l ++ [c]) [e] []) = buildTree hashBytes (l ++ [e, c]) := by
  have hperm : (l ++ [e, c]).Perm (l ++ [c] ++ [e]) := by
    rw [append_assoc]
    exact (List.Perm.swap c e []).append_left l
  have hkeep : ∀ x ∈ l ++ [c], x.path ≠ e.path := by
    obtain ⟨-, hpair, hcross⟩ := pairwise_append.1 hs
    intro x hx
    rcases mem_append.1 hx with hx | hx
    · exact (hcross x hx e mem_cons_self).ne
    · exact ((pairwise_cons.1 hpair).1 x hx).ne'
  have hupdated : updatedEntries (l ++ [c]) [e] [] = l ++ [c] ++ [e] := by
    have hfilter : (l ++ [c]).filter (fun x => x.path ∉ ([] : List String)) = l ++ [c] := by simp
    rw [updatedEntries, hfilter, foldl_cons, foldl_nil, putEntry,
      filter_eq_self.2 fun x hx => decide_eq_true (hkeep x hx)]
  apply buildTree_congr
  rw [hupdated, hs.sortBy_self]
  exact hs.eq_sortBy hperm

theorem rangeRecordLen_of_storeLeaf (h : storeLeaf hashBytes l = .ok (r, chunk))
    (ha : l.head? = some a) (hb : l.getLast? = some b) : r.maxPath = b.path ∧
      rangeRecordLen r = a.path.utf8ByteSize + b.path.utf8ByteSize + 48 := by
  obtain ⟨-, a', b', ha', hb', rfl⟩ := storeLeaf_iff.1 h
  rw [ha] at ha'
  rw [hb] at hb'
  cases ha'
  cases hb'
  refine ⟨rfl, ?_⟩
  simp only [rangeRecordLen]
  omega

theorem noCollision_of_length (hlt : ∀ a ∈ chunks, a.length < 256 ^ 32)
    (hnodup : (chunks.map List.length).Nodup) : NoCollision lengthHash chunks := by
  intro a ha b hb h
  exact inj_on_of_nodup_map hnodup ha hb (lengthHash_inj (hlt a ha) (hlt b hb) h)

/-- A record that fits into a leaf which ends only since the next record did not: a build puts it
there, an update does not. -/
theorem updateTree_ne_buildTree (hv : validateEntries (l ++ [b, c]) = .ok ())
    (hlen : l.length + 2 < minLeafEntries) (hhead : l.head? = some a) (hlast : l.getLast? = some z)
    (hfits : leafHeaderBytes + (l.map leafRecordLen).sum + leafRecordLen b < maxNodeBytes)
    (hover : maxNodeBytes < leafHeaderBytes + (l.map leafRecordLen).sum + leafRecordLen c)
    (hz : z.path.utf8ByteSize ≠ c.path.utf8ByteSize)
    (hlarge : 30000 < leafHeaderBytes + (l.map leafRecordLen).sum) :
    ∃ root chunks root' stats chunks' rebuilt chunks'',
      buildTree lengthHash (l ++ [c]) = .ok (root, chunks) ∧
      (storeOf lengthHash chunks).Holds lengthHash chunks ∧
      updateTree lengthHash (storeOf lengthHash chunks) root [b] [] = .ok (root', stats, chunks') ∧
      buildTree lengthHash (updatedEntries (l ++ [c]) [b] []) = .ok (rebuilt, chunks'') ∧
      root' ≠ rebuilt := by
  have hne : l ≠ [] := by
    rintro rfl
    cases hhead
  obtain ⟨-, hpaths, hsort⟩ := validateEntries_eq_ok.1 hv
  have hsize (e : FileEntry) (he : e ∈ l ++ [b, c]) : e.path.utf8ByteSize ≤ 4096 :=
    (validatePath_size (hpaths e he)).2
  have hvl := validateEntries_sublist hv (sublist_append_left l [b, c])
  have hvr := validateEntries_sublist hv (sublist_append_right l [b, c])
  have hvc := validateEntries_sublist hvr (sublist_cons_self b [c])
  have hv₁ : validateEntries (l ++ [c]) = .ok () :=
    validateEntries_sublist hv ((sublist_cons_self b [c]).append_left l)
  have hv₃ : validateEntries (l ++ [b] ++ [c]) = .ok () := by rwa [append_assoc]
  have hvlb := validateEntries_sublist hv₃ (sublist_append_left (l ++ [b]) [c])
  have hb := hsize b (by simp)
  have hc := hsize c (by simp)
  have ha := hsize a (mem_append_left _ (mem_of_head? hhead))
  have hz' := hsize z (mem_append_left _ (mem_of_getLast? hlast))
  have hcaps : leafHeaderBytes = 8 ∧ maxNodeBytes = 262144 ∧ minLeafEntries = 128 ∧
      maxLeafEntries = 1024 := ⟨rfl, rfl, rfl, rfl⟩
  have hrec (e : FileEntry) : leafRecordLen e = e.path.utf8ByteSize + 50 := by
    rw [leafRecordLen]
    omega
  rw [hrec] at hfits hover
  have hsum (l l' : List FileEntry) : ((l ++ l').map leafRecordLen).sum =
      (l.map leafRecordLen).sum + (l'.map leafRecordLen).sum := by
    rw [map_append, sum_append]
  have hone (e : FileEntry) : ([e].map leafRecordLen).sum = e.path.utf8ByteSize + 50 := hrec e
  have hpair : ([b, c].map leafRecordLen).sum =
      b.path.utf8ByteSize + 50 + (c.path.utf8ByteSize + 50) := by
    rw [← hone b, ← hone c, ← hsum, singleton_append]
  -- The leaves of the three trees.
  obtain ⟨r, chunk, hr⟩ := storeLeaf_of_fits hne hvl (by omega) (by omega)
  obtain ⟨r₁, chunk₁, hr₁⟩ := storeLeaf_of_fits (by simp) hvc
    (by simp [hcaps]) (by rw [hone]; omega)
  obtain ⟨r₂, chunk₂, hr₂⟩ := storeLeaf_of_fits (by simp) hvr
    (by simp [hcaps]) (by rw [hpair]; omega)
  obtain ⟨r₃, chunk₃, hr₃⟩ := (@storeLeaf_of_fits lengthHash) (by simp) hvlb
    (by simp; omega) (by rw [hsum, hone]; omega)
  obtain ⟨parent, node, t⟩ := exists_twoLeaves hv₁ hr hr₁
  obtain ⟨parent', node', t'⟩ := exists_twoLeaves hv hr hr₂
  obtain ⟨parent'', node'', t''⟩ := exists_twoLeaves hv₃ hr₃ hr₁
  obtain ⟨hmax, hlenr⟩ := rangeRecordLen_of_storeLeaf hr hhead hlast
  obtain ⟨-, hlenr₁⟩ := rangeRecordLen_of_storeLeaf (a := c) (b := c) hr₁ rfl rfl
  obtain ⟨-, hlenr₂⟩ := rangeRecordLen_of_storeLeaf (a := b) (b := c) hr₂ rfl rfl
  obtain ⟨-, hlenr₃⟩ := rangeRecordLen_of_storeLeaf (a := a) (b := b) hr₃
    (by rw [head?_append, hhead]; rfl) (by simp)
  obtain ⟨-, hnode⟩ := t.hash_eq
  obtain ⟨hhash', hnode'⟩ := t'.hash_eq
  obtain ⟨hhash'', hnode''⟩ := t''.hash_eq
  have hheader : internalHeaderBytes = 12 := rfl
  have hchunk : chunk.length = leafHeaderBytes + (l.map leafRecordLen).sum :=
    encodeLeaf_length (storeLeaf_eq_ok hr).1
  have hchunk₁ : chunk₁.length = leafHeaderBytes + (c.path.utf8ByteSize + 50) :=
    (encodeLeaf_length (storeLeaf_eq_ok hr₁).1).trans (by rw [hone])
  have hholds : (storeOf lengthHash [chunk, chunk₁, node]).Holds lengthHash
      [chunk, chunk₁, node] := by
    apply NoCollision.holds
    apply noCollision_of_length
    · simp only [mem_cons, not_mem_nil, or_false, forall_eq_or_imp, forall_eq]
      omega
    · simp only [map_cons, map_nil, nodup_cons, mem_cons, not_mem_nil,
        or_false, not_or, not_false_eq_true, nodup_nil, and_true]
      omega
  have hcut : leafRule.cut [] (l ++ [c]) = [l, [c]] := by
    rw [leafRule_cut_of_overflow hne (by omega) (by omega) (by simpa [hrec] using hover),
      leafRule_cut_of_small (by simp) (by simp [hcaps]) (by rw [hone]; omega)]
  have hcut' : leafRule.cut [] [b, c] = [[b, c]] :=
    leafRule_cut_of_small (by simp) (by simp [hcaps]) (by rw [hpair]; omega)
  have hcut'' : leafRule.cut [] (l ++ [b] ++ [c]) = [l ++ [b], [c]] := by
    rw [leafRule_cut_of_overflow (by simp) (by simp; omega) (by rw [hsum, hone]; omega)
        (by rw [hsum, hone]; simp [hrec]; omega),
      leafRule_cut_of_small (by simp) (by simp [hcaps]) (by rw [hone]; omega)]
  have hbefore : r.maxPath < b.path := by
    rw [hmax]
    exact (pairwise_append.1 hsort).2.2 z (mem_of_getLast? hlast) b mem_cons_self
  have hrebuild := t''.buildTree_eq hcut''
  rw [append_assoc, singleton_append] at hrebuild
  refine ⟨_, _, _, _, _, _, _, t.buildTree_eq hcut, hholds, updateTree_between t t' hholds hcut' hbefore,
    (buildTree_between hsort).trans hrebuild, ?_⟩
  intro hroots
  have hparents : parent' = parent'' := Option.some.inj (congrArg TreeV2Root.child hroots)
  have hhashes : lengthHash node' = lengthHash node'' := by rw [← hhash', ← hhash'', hparents]
  have := lengthHash_inj (by omega) (by omega) hhashes
  omega

/-- A character of one byte that a path may be made of. -/
structure Plain (c : Char) : Prop where
  size : c.utf8Size = 1
  slash : c ≠ '/'
  backslash : c ≠ '\\'
  control : isControl c = false
  dot : c ≠ '.'

theorem Plain.ofMem (h : c ∈ ['a', 'b', 'c']) : Plain c := by
  simp only [mem_cons, not_mem_nil, or_false] at h
  rcases h with rfl | rfl | rfl
  all_goals exact ⟨by decide, by decide, by decide, by decide, by decide⟩

theorem Plain.utf8ByteSize (hc : Plain c) (n : Nat) : (repeated c n).path.utf8ByteSize = n := by
  rw [repeated, String.utf8ByteSize_ofList]
  induction n with
  | zero => rfl
  | succ n ih => simp [replicate_succ, ih, hc.size]

theorem Plain.leafRecordLen (hc : Plain c) (n : Nat) : leafRecordLen (repeated c n) = n + 50 := by
  rw [TreeV2.leafRecordLen, hc.utf8ByteSize]
  omega

theorem Plain.validatePath (hc : Plain c) (hpos : 0 < n) (hle : n ≤ maxPathBytes) :
    validatePath (repeated c n).path = .ok () := by
  have hlist : (repeated c n).path.toList = List.replicate n c := String.toList_ofList
  have hsplit : (List.replicate n c).splitOn '/' = [List.replicate n c] := by
    rw [splitOn_eq_splitOnP]
    apply splitOnP_eq_singleton
    intro x hx
    rw [eq_of_mem_replicate hx]
    simpa using hc.slash
  have hne : (repeated c n).path.isEmpty = false := by
    rw [Bool.eq_false_iff]
    intro h
    have hsize := hc.utf8ByteSize n
    rw [String.isEmpty_iff.1 h, String.utf8ByteSize_empty] at hsize
    omega
  obtain ⟨m, rfl⟩ : ∃ m, n = m + 1 := ⟨n - 1, by omega⟩
  simp only [TreeV2.validatePath, bind_eq_ok, exists_unit, reject_eq_ok, hlist, hsplit, hne,
    hc.utf8ByteSize]
  constructor
  · simpa [replicate_succ, hc.slash] using hle
  · simp [replicate_succ, hc.backslash.symm, hc.control, hc.dot]

theorem repeated_lt (c : Char) (h : m < n) : (repeated c m).path < (repeated c n).path := by
  rw [repeated, repeated, String.lt_iff_toList_lt, String.toList_ofList, String.toList_ofList]
  induction m generalizing n with
  | zero =>
    obtain ⟨k, rfl⟩ : ∃ k, n = k + 1 := ⟨n - 1, by omega⟩
    exact nil_lt_cons _ _
  | succ m ih =>
    obtain ⟨k, rfl⟩ : ∃ k, n = k + 1 := ⟨n - 1, by omega⟩
    exact cons_lt_cons_iff.2 (.inr ⟨rfl, ih (by omega)⟩)

theorem repeated_lt_of_lt (h : c < d) (m n : Nat) :
    (repeated c (m + 1)).path < (repeated d (n + 1)).path := by
  rw [repeated, repeated, String.lt_iff_toList_lt, String.toList_ofList, String.toList_ofList]
  exact cons_lt_cons_iff.2 (.inl h)

def fullLeaf : List FileEntry := (List.range 63).map fun i => repeated 'a' (4034 + i)

theorem fullLeaf_size : leafHeaderBytes + (fullLeaf.map leafRecordLen).sum = 259253 := by
  have ha : Plain 'a' := .ofMem (by simp)
  have hmap : fullLeaf.map leafRecordLen = (List.range 63).map fun i => 4034 + i + 50 := by
    rw [fullLeaf, map_map]
    exact map_congr_left fun i _ => ha.leafRecordLen _
  rw [hmap]
  decide

theorem validateEntries_sample : validateEntries (fullLeaf ++ [repeated 'b' 1, repeated 'c' 4000]) = .ok () := by
  refine validateEntries_eq_ok.2 ⟨?_, ?_, ?_⟩
  · simp [fullLeaf, maxLoadedEntries]
  · intro e he
    simp only [fullLeaf, mem_append, mem_map, mem_range, mem_cons, not_mem_nil, or_false] at he
    rcases he with ⟨i, hi, rfl⟩ | rfl | rfl
    · exact (Plain.ofMem (by simp)).validatePath (by omega) (by simp only [maxPathBytes]; omega)
    · exact (Plain.ofMem (by simp)).validatePath (by decide) (by decide)
    · exact (Plain.ofMem (by simp)).validatePath (by decide) (by decide)
  · refine pairwise_append.2 ⟨?_, ?_, ?_⟩
    · exact pairwise_map.2 (pairwise_lt_range.imp fun h => repeated_lt _ (by omega))
    · exact pairwise_pair.2 (repeated_lt_of_lt (by decide) 0 3999)
    · intro x hx y hy
      obtain ⟨i, -, rfl⟩ := mem_map.1 hx
      have hi : 4034 + i = 4033 + i + 1 := by omega
      simp only [mem_cons, not_mem_nil, or_false] at hy
      rw [hi]
      rcases hy with rfl | rfl
      · exact repeated_lt_of_lt (by decide) _ 0
      · exact repeated_lt_of_lt (by decide) _ 3999

/-- The record "b" fits into the full leaf in front of it, and the update leaves that leaf alone. -/
theorem updateTree_skips_full_leaf : ∃ root chunks root' stats chunks' rebuilt chunks'',
    buildTree lengthHash (fullLeaf ++ [repeated 'c' 4000]) = .ok (root, chunks) ∧
    (storeOf lengthHash chunks).Holds lengthHash chunks ∧
    updateTree lengthHash (storeOf lengthHash chunks) root [repeated 'b' 1] [] =
      .ok (root', stats, chunks') ∧
    buildTree lengthHash (updatedEntries (fullLeaf ++ [repeated 'c' 4000]) [repeated 'b' 1] []) =
      .ok (rebuilt, chunks'') ∧
    root' ≠ rebuilt := by
  have ha : Plain 'a' := .ofMem (by simp)
  have hb : Plain 'b' := .ofMem (by simp)
  have hc : Plain 'c' := .ofMem (by simp)
  have hlast : fullLeaf.getLast? = some (repeated 'a' 4096) := rfl
  apply updateTree_ne_buildTree validateEntries_sample (by decide) rfl hlast
  · rw [fullLeaf_size, hb.leafRecordLen]
    decide
  · rw [fullLeaf_size, hc.leafRecordLen]
    decide
  · rw [ha.utf8ByteSize, hc.utf8ByteSize]
    decide
  · rw [fullLeaf_size]
    decide

end Obsetync.TreeV2

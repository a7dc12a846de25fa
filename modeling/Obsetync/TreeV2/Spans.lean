import Obsetync.TreeV2.Boundaries

namespace Obsetync.TreeV2
open Segmentation Fallible Keyed List

/-- The leaves under a list of ranges, as the store's nodes unfold them. -/
inductive Spans (store : ChunkStore) : List RangeRef → List RangeRef → Prop where
  | nil : Spans store [] []
  | leaf : r.height = 0 → Spans store rs ls → Spans store (r :: rs) (r :: ls)
  | node : r.height ≠ 0 → store.get r.hash = .ok bytes →
      decodeNode bytes = .ok (.internal childHeight children) →
      Spans store (children ++ rs) ls → Spans store (r :: rs) ls

theorem Spans.unique (h : Spans store rs ls) (h' : Spans store rs ls') : ls = ls' := by
  induction h generalizing ls' with
  | nil =>
    cases h'
    rfl
  | leaf hz hs ih =>
    cases h' with
    | leaf hz' hs' => rw [ih hs']
    | node hz' hget hdec hs' => exact absurd hz hz'
  | node hz hget hdec hs ih =>
    cases h' with
    | leaf hz' hs' => exact absurd hz' hz
    | node hz' hget' hdec' hs' =>
      cases hget.symm.trans hget'
      cases hdec.symm.trans hdec'
      exact ih hs'

theorem Spans.append (h : Spans store rs ls) (h' : Spans store rs' ls') :
    Spans store (rs ++ rs') (ls ++ ls') := by
  induction h with
  | nil => exact h'
  | leaf hz hs ih => exact .leaf hz ih
  | node hz hget hdec hs ih =>
    apply Spans.node hz hget hdec
    rw [append_assoc] at ih
    exact ih

theorem Spans.split (h : Spans store (rs ++ rs') ls) :
    ∃ l l', ls = l ++ l' ∧ Spans store rs l ∧ Spans store rs' l' := by
  generalize hrs : rs ++ rs' = all at h
  induction h generalizing rs with
  | nil =>
    obtain ⟨rfl, rfl⟩ := append_eq_nil_iff.1 hrs
    exact ⟨[], [], rfl, .nil, .nil⟩
  | leaf hz hs ih =>
    cases rs with
    | nil =>
      subst hrs
      exact ⟨[], _, rfl, .nil, .leaf hz hs⟩
    | cons r rs =>
      obtain ⟨rfl, hrest⟩ := List.cons.inj hrs
      obtain ⟨l, l', rfl, hl, hl'⟩ := ih hrest
      exact ⟨_ :: l, l', rfl, .leaf hz hl, hl'⟩
  | node hz hget hdec hs ih =>
    cases rs with
    | nil =>
      subst hrs
      exact ⟨[], _, rfl, .nil, .node hz hget hdec hs⟩
    | cons r rs =>
      obtain ⟨rfl, rfl⟩ := List.cons.inj hrs
      obtain ⟨l, l', rfl, hl, hl'⟩ := ih (append_assoc _ rs rs')
      exact ⟨l, l', rfl, .node hz hget hdec hl, hl'⟩

theorem Spans.of_leaves (h : ∀ r ∈ rs, r.height = 0) : Spans store rs rs := by
  induction rs with
  | nil => exact .nil
  | cons r rs ih =>
    exact .leaf (h r mem_cons_self) (ih fun r' hr' => h r' (mem_cons_of_mem _ hr'))

theorem collectLoop_spans
    (h : collectLoop hashBytes store fuel pending budget leaves = .ok (out, budget')) :
    ∃ ls, Spans store pending ls ∧ out = leaves ++ ls := by
  induction fuel generalizing pending budget leaves with
  | zero =>
    cases pending with
    | nil =>
      cases h
      exact ⟨[], .nil, (append_nil _).symm⟩
    | cons r pending => cases h
  | succ fuel ih =>
    cases pending with
    | nil =>
      cases h
      exact ⟨[], .nil, (append_nil _).symm⟩
    | cons r pending =>
      rw [collectLoop, bind_eq_ok] at h
      obtain ⟨budget₁, -, h⟩ := h
      split_ifs at h with hz
      · obtain ⟨ls, hs, rfl⟩ := ih h
        exact ⟨r :: ls, .leaf hz hs, by rw [append_assoc]; rfl⟩
      · obtain ⟨node, hload, h⟩ := bind_eq_ok.1 h
        obtain ⟨-, bytes, hget, -, -, hdec, -⟩ := decodeNode_of_loadNode hload
        cases node with
        | leaf entries => cases h
        | internal childHeight children =>
          obtain ⟨ls, hs, rfl⟩ := ih h
          exact ⟨ls, .node hz hget hdec hs, rfl⟩

theorem collectLeafRefs_spans
    (h : collectLeafRefs hashBytes store root budget = .ok (leaves, budget')) :
    Spans store root.child.toList leaves := by
  simp only [collectLeafRefs, bind_eq_ok, exists_unit, pure_eq_ok] at h
  obtain ⟨-, ⟨leaves', budget₁⟩, hloop, -, total, -, -, heq⟩ := h
  cases heq
  obtain ⟨ls, hs, rfl⟩ := collectLoop_spans hloop
  exact hs

theorem storeLeaf_iff {range} :
    storeLeaf hashBytes entries = .ok (range, bytes) ↔ encodeLeaf entries = .ok bytes ∧
      ∃ first last, entries.head? = some first ∧ entries.getLast? = some last ∧
        range = ⟨first.path, last.path, hashBytes bytes, UInt64.ofNat entries.length,
          UInt32.ofNat bytes.length, 0⟩ := by
  simp only [storeLeaf, bind_eq_ok, exists_unit, reject_eq_ok, decide_eq_false_iff_not, not_le]
  constructor
  · rintro ⟨bytes', henc, -, h⟩
    split at h
    · next first last hfirst hlast =>
      cases h
      exact ⟨henc, first, last, hfirst, hlast, rfl⟩
    · cases h
  · rintro ⟨henc, first, last, hfirst, hlast, rfl⟩
    have hlen := encodeLeaf_length henc
    have hcap := (encodeLeaf_eq_ok.1 henc).2.2.1
    refine ⟨bytes, henc, ?_, ?_⟩
    · rw [hlen]
      exact lt_of_le_of_lt hcap (by decide)
    · rw [hfirst, hlast]
      rfl

theorem storeLeaf_eq_ok {range} (h : storeLeaf hashBytes entries = .ok (range, bytes)) :
    encodeLeaf entries = .ok bytes ∧ entries ≠ [] ∧ range.hash = hashBytes bytes ∧
      range.height = 0 ∧ entries.getLast?.map FileEntry.path = some range.maxPath := by
  obtain ⟨henc, first, last, hfirst, hlast, rfl⟩ := storeLeaf_iff.1 h
  refine ⟨henc, ?_, rfl, rfl, ?_⟩
  · rintro rfl
    cases hfirst
  · rw [hlast]
    rfl

theorem storeInternal_iff {range} : storeInternal hashBytes childHeight children = .ok (range, bytes) ↔
      encodeInternal childHeight children = .ok bytes ∧
      ∃ fileCount first last, sumFileCount children = .ok fileCount ∧
        children.head? = some first ∧ children.getLast? = some last ∧
        range = ⟨first.minPath, last.maxPath, hashBytes bytes, fileCount,
          UInt32.ofNat bytes.length, childHeight + 1⟩ := by
  simp only [storeInternal, bind_eq_ok, exists_unit, reject_eq_ok, decide_eq_false_iff_not, not_le]
  constructor
  · rintro ⟨bytes', henc, -, fileCount, hsum, h⟩
    split at h
    · next first last hfirst hlast =>
      cases h
      exact ⟨henc, fileCount, first, last, hsum, hfirst, hlast, rfl⟩
    · cases h
  · rintro ⟨henc, fileCount, first, last, hsum, hfirst, hlast, rfl⟩
    have hlen := encodeInternal_length henc
    have hcap := (encodeInternal_eq_ok.1 henc).2.2.2.1
    refine ⟨bytes, henc, ?_, fileCount, hsum, ?_⟩
    · rw [hlen]
      exact lt_of_le_of_lt hcap (by decide)
    · rw [hfirst, hlast]
      rfl

theorem storeInternal_eq_ok {range}
    (h : storeInternal hashBytes childHeight children = .ok (range, bytes)) :
    encodeInternal childHeight children = .ok bytes ∧ range.hash = hashBytes bytes ∧
      range.height = childHeight + 1 := by
  obtain ⟨henc, fileCount, first, last, -, -, -, rfl⟩ := storeInternal_iff.1 h
  exact ⟨henc, rfl, rfl⟩

theorem height_toNat_succ (hlt : h < maxTreeDepth) : (h + 1).toNat = h.toNat + 1 := by
  have hlt' : h.toNat < 16 := UInt16.lt_iff_toNat_lt.1 hlt
  rw [UInt16.toNat_add]
  exact Nat.mod_eq_of_lt (by simp; omega)

theorem height_succ_ne_zero (hlt : h < maxTreeDepth) : h + 1 ≠ 0 := by
  intro h0
  rw [← UInt16.toNat_inj, height_toNat_succ hlt] at h0
  simp at h0

theorem minPath_le_maxPath {ranges} (hv : ∀ r ∈ ranges, validateRange r = .ok ()) (ho : Ordered ranges)
    (hfirst : ranges.head? = some first) (hlast : ranges.getLast? = some last) :
    first.minPath ≤ last.maxPath := by
  induction ranges generalizing first with
  | nil => cases hfirst
  | cons r ranges ih =>
    cases hfirst
    have hr := (validateRange_eq_ok.1 (hv r mem_cons_self)).ordered
    cases ranges with
    | nil =>
      cases hlast
      exact hr
    | cons r' ranges =>
      obtain ⟨⟨hlt, -⟩, ho'⟩ := isChain_cons_cons.1 ho
      have hrest := ih (fun x hx => hv x (mem_cons_of_mem _ hx)) ho' rfl hlast
      exact hr.trans (hlt.le.trans hrest)

theorem validRange_of_storeLeaf {range} (h : storeLeaf hashBytes entries = .ok (range, bytes)) :
    ValidRange range := by
  obtain ⟨henc, first, last, hfirst, hlast, rfl⟩ := storeLeaf_iff.1 h
  obtain ⟨hv, hle, hcap, -⟩ := encodeLeaf_eq_ok.1 henc
  obtain ⟨-, hpaths, hsort⟩ := validateEntries_eq_ok.1 hv
  have hmem : first ∈ entries := mem_of_head? hfirst
  have hpos : 0 < entries.length := length_pos_of_mem hmem
  have hlen := encodeLeaf_length henc
  have hcount : (UInt64.ofNat entries.length).toNat = entries.length :=
    UInt64.toNat_ofNat_of_lt' (lt_of_le_of_lt hle (by decide))
  have hbytes : (UInt32.ofNat bytes.length).toNat = bytes.length :=
    UInt32.toNat_ofNat_of_lt' (hlen ▸ lt_of_le_of_lt hcap (by decide))
  refine ⟨hpaths first hmem, hpaths last (mem_of_getLast? hlast), ?_, ?_, ?_, ?_, ?_, ?_, ?_⟩
  · obtain ⟨l, rfl⟩ := head?_eq_some_iff.1 hfirst
    rcases mem_cons.1 (mem_of_getLast? hlast) with rfl | hm
    · exact le_refl _
    · exact ((pairwise_cons.1 hsort).1 last hm).le
  · intro h0
    rw [← UInt64.toNat_inj, hcount] at h0
    exact hpos.ne' h0
  · rw [hcount]
    exact hle.trans (by decide)
  · rw [hcount]
    exact fun _ => hle
  · intro h0
    rw [← UInt32.toNat_inj, hbytes, hlen] at h0
    simp [leafHeaderBytes] at h0
  · rw [hbytes, hlen]
    exact hcap
  · exact UInt16.zero_le

theorem loadNode_eq_ok {range} (hv : validateRange range = .ok ()) (hget : store.get range.hash = .ok bytes)
    (hlen : bytes.length = range.serializedBytes.toNat) (hhash : hashBytes bytes = range.hash)
    (hdec : decodeNode bytes = .ok node)
    (hdesc : validateDescriptorForNode range bytes.length node = .ok ()) :
    loadNode hashBytes store range = .ok node := by
  simp only [loadNode, validateLoadedNode, bind_eq_ok, exists_unit, reject_eq_ok, pure_eq_ok]
  exact ⟨hv, bytes, hget, hv, by simp [hlen, hhash], node, hdec, hdesc, rfl⟩

theorem loadNode_storeLeaf {range} (h : storeLeaf hashBytes entries = .ok (range, bytes))
    (hget : store.get (hashBytes bytes) = .ok bytes) :
    loadNode hashBytes store range = .ok (.leaf entries) := by
  have hv := validateRange_eq_ok.2 (validRange_of_storeLeaf h)
  have hne := (storeLeaf_eq_ok h).2.1
  obtain ⟨henc, first, last, hfirst, hlast, rfl⟩ := storeLeaf_iff.1 h
  have hlt : bytes.length < 2 ^ 32 :=
    encodeLeaf_length henc ▸ lt_of_le_of_lt (encodeLeaf_eq_ok.1 henc).2.2.1 (by decide)
  refine loadNode_eq_ok hv hget ?_ rfl (decodeNode_encodeLeaf hne henc) ?_
  · exact (UInt32.toNat_ofNat_of_lt' hlt).symm
  · simp only [validateDescriptorForNode, bind_eq_ok, exists_unit, reject_eq_ok,
      decide_eq_false_iff_not, not_le]
    exact ⟨hlt, by simp [hfirst, hlast]⟩

theorem validRange_of_storeInternal {range}
    (h : storeInternal hashBytes childHeight children = .ok (range, bytes))
    (hh : childHeight < maxTreeDepth) (hpos : range.fileCount ≠ 0)
    (hle : range.fileCount.toNat ≤ maxLoadedEntries) : ValidRange range := by
  obtain ⟨henc, fileCount, first, last, hsum, hfirst, hlast, rfl⟩ := storeInternal_iff.1 h
  obtain ⟨-, -, hvr, hcap, -⟩ := encodeInternal_eq_ok.1 henc
  obtain ⟨hvalid, hordered⟩ := validateRanges_eq_ok.1 hvr
  have hlen := encodeInternal_length henc
  have hbytes : (UInt32.ofNat bytes.length).toNat = bytes.length :=
    UInt32.toNat_ofNat_of_lt' (hlen ▸ lt_of_le_of_lt hcap (by decide))
  refine ⟨?_, ?_, ?_, hpos, hle, fun h0 => absurd h0 (height_succ_ne_zero hh), ?_, ?_, ?_⟩
  · exact (validateRange_eq_ok.1 (hvalid first (mem_of_head? hfirst)).2).minPath
  · exact (validateRange_eq_ok.1 (hvalid last (mem_of_getLast? hlast)).2).maxPath
  · have hmm := minPath_le_maxPath (fun r hr => (hvalid r hr).2) hordered hfirst hlast
    exact hmm
  · intro h0
    rw [← UInt32.toNat_inj, hbytes, hlen] at h0
    simp [internalHeaderBytes] at h0
  · rw [hbytes, hlen]
    exact hcap
  · rw [UInt16.le_iff_toNat_le, height_toNat_succ hh]
    exact UInt16.lt_iff_toNat_lt.1 hh

theorem loadNode_storeInternal {range}
    (h : storeInternal hashBytes childHeight children = .ok (range, bytes))
    (hh : childHeight < maxTreeDepth) (hpos : range.fileCount ≠ 0)
    (hle : range.fileCount.toNat ≤ maxLoadedEntries)
    (hget : store.get (hashBytes bytes) = .ok bytes) :
    loadNode hashBytes store range = .ok (.internal childHeight children) := by
  have hv := validateRange_eq_ok.2 (validRange_of_storeInternal h hh hpos hle)
  obtain ⟨henc, fileCount, first, last, hsum, hfirst, hlast, rfl⟩ := storeInternal_iff.1 h
  have hlt : bytes.length < 2 ^ 32 := by
    rw [encodeInternal_length henc]
    exact lt_of_le_of_lt (encodeInternal_eq_ok.1 henc).2.2.2.1 (by decide)
  refine loadNode_eq_ok hv hget (UInt32.toNat_ofNat_of_lt' hlt).symm rfl
    (decodeNode_encodeInternal hh henc) ?_
  simp only [validateDescriptorForNode, bind_eq_ok, exists_unit, reject_eq_ok,
    decide_eq_false_iff_not, not_le]
  exact ⟨hlt, fileCount, hsum, by simp [hfirst, hlast]⟩

theorem Spans.parents {slices : List (List RangeRef)} {parents : List (RangeRef × Bytes)}
    (hp : List.Forall₂ (fun slice parent => storeInternal hashBytes height slice = .ok parent)
      slices parents) (hh : height < maxTreeDepth) (hstore : store.Holds hashBytes (parents.map Prod.snd))
    (h : Spans store slices.flatten ls) : Spans store (parents.map Prod.fst) ls := by
  induction hp generalizing ls with
  | nil => exact h
  | @cons slice parent slices parents hslice hrest ih =>
    obtain ⟨range, bytes⟩ := parent
    obtain ⟨henc, hhash, hheight⟩ := storeInternal_eq_ok hslice
    obtain ⟨l, l', rfl, hl, hl'⟩ := Spans.split h
    have hget : store.get range.hash = .ok bytes := by
      rw [hhash]
      exact hstore bytes mem_cons_self
    apply Spans.node (hheight ▸ height_succ_ne_zero hh) hget (decodeNode_encodeInternal hh henc)
    exact hl.append (ih (fun c hc => hstore c (mem_cons_of_mem _ hc)) hl')

theorem rootLevels_spans {ranges} (h : rootLevels hashBytes fuel ranges emitted chunks =
      .ok (child, emitted', chunks')) :
    (∀ c ∈ chunks, c ∈ chunks') ∧
      (store.Holds hashBytes chunks' → Spans store ranges ls → Spans store [child] ls) := by
  induction fuel generalizing ranges emitted chunks with
  | zero =>
    match ranges with
    | [] => cases h
    | [range] =>
      cases h
      exact ⟨fun c hc => hc, fun _ hs => hs⟩
    | _ :: _ :: _ => cases h
  | succ fuel ih =>
    match ranges with
    | [] => cases h
    | [range] =>
      cases h
      exact ⟨fun c hc => hc, fun _ hs => hs⟩
    | first :: second :: rest =>
      simp only [rootLevels, bind_eq_ok, exists_unit, reject_eq_ok, decide_eq_false_iff_not,
        UInt16.not_le] at h
      obtain ⟨hh, hv, segments, hseg, parents, hparents, hrec⟩ := h
      obtain ⟨hsub, hspan⟩ := ih hrec
      have hvr := fun r hr => ((validateRanges_eq_ok.1 hv).1 r hr).2
      have hcut : segments.map (·.slice (first :: second :: rest)) =
          internalRule.cut [] (first :: second :: rest) := by
        have hspec := segmentRanges_spec hvr
        rw [hseg] at hspec
        exact hspec.slices_eq_cut
      have hfl : (segments.map (·.slice (first :: second :: rest))).flatten =
          first :: second :: rest := by
        rw [hcut, Rule.flatten_cut]
        rfl
      have hp := mapM_eq_ok.1 hparents
      refine ⟨fun c hc => hsub c (mem_append_left _ hc), fun hstore hs => hspan hstore ?_⟩
      apply Spans.parents (forall₂_map_left_iff.2 hp) hh
      · intro c hc
        exact hstore c (hsub c (mem_append_right _ hc))
      · rwa [hfl]

theorem rootFromLeaves_spans (h : rootFromLeaves hashBytes leaves = .ok (root, emitted, chunks))
    (hstore : store.Holds hashBytes chunks) : Spans store root.child.toList leaves := by
  rw [rootFromLeaves] at h
  split_ifs at h with he
  · cases h
    rw [List.isEmpty_iff.1 he]
    exact .nil
  · simp only [bind_eq_ok, exists_unit, pure_eq_ok] at h
    obtain ⟨hv, total, -, ⟨child, emitted', chunks'⟩, hlev, heq⟩ := h
    cases heq
    apply (rootLevels_spans hlev).2 hstore
    exact .of_leaves fun r hr => ((validateRanges_eq_ok.1 hv).1 r hr).1

end Obsetync.TreeV2

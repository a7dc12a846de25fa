import Obsetync.TreeV2.Denotes

namespace Obsetync.TreeV2
open Segmentation Fallible Keyed List

variable {hashBytes : Bytes → FileHash} {store : ChunkStore}

def countOf (ranges : List RangeRef) : Nat := (ranges.map (·.fileCount.toNat)).sum

@[simp] theorem countOf_nil : countOf [] = 0 := rfl

@[simp] theorem countOf_cons {ranges} : countOf (r :: ranges) = r.fileCount.toNat + countOf ranges := rfl

@[simp] theorem countOf_append : countOf (rs ++ rs') = countOf rs + countOf rs' := by
  simp [countOf]

theorem checkedAdd_eq_ok : checkedAdd a b = .ok c ↔ a.toNat + b.toNat = c.toNat := by
  rw [checkedAdd]
  split_ifs with h
  · rw [Except.ok.injEq, ← UInt64.toNat_inj, UInt64.toNat_add, Nat.mod_eq_of_lt h]
  · constructor
    · intro h'
      cases h'
    · intro h'
      exact absurd (h' ▸ c.toNat_lt) h

theorem sumFileCount_eq_ok {ranges} : sumFileCount ranges = .ok total ↔ countOf ranges = total.toNat := by
  have hfold (sum : UInt64) : ranges.foldlM (fun sum range => checkedAdd sum range.fileCount) sum =
      .ok total ↔ sum.toNat + countOf ranges = total.toNat := by
    induction ranges generalizing sum with
    | nil =>
      rw [foldlM_nil, pure_eq_ok, countOf_nil, Nat.add_zero, UInt64.toNat_inj]
    | cons r ranges ih =>
      rw [foldlM_cons, bind_eq_ok]
      simp only [ih, checkedAdd_eq_ok]
      rw [countOf_cons, ← Nat.add_assoc]
      constructor
      · rintro ⟨a, ha, h⟩
        rw [ha]
        exact h
      · intro h
        have hlt : sum.toNat + r.fileCount.toNat < 2 ^ 64 :=
          lt_of_le_of_lt (Nat.le.intro h) total.toNat_lt
        refine ⟨UInt64.ofNat (sum.toNat + r.fileCount.toNat), ?_, ?_⟩
        · exact (UInt64.toNat_ofNat_of_lt' hlt).symm
        · rw [UInt64.toNat_ofNat_of_lt' hlt]
          exact h
  rw [sumFileCount, hfold]
  simp

section Limits

variable {α : Type} {limits : SegmentLimits} {recordLen : α → Nat} {key : α → Bytes} {xs : List α}

theorem SegmentLimits.size_le (h : ∀ x ∈ l, recordLen x ≤ r) :
    limits.size recordLen l ≤ limits.headerBytes + l.length * r := by
  have hsum := sum_le_card_nsmul (l.map recordLen) r (by
    intro n hn
    obtain ⟨x, hx, rfl⟩ := mem_map.1 hn
    exact h x hx)
  rw [length_map, smul_eq_mul] at hsum
  exact Nat.add_le_add_left hsum _

theorem SegmentLimits.cut_fits (hfit : ∀ x ∈ xs, limits.headerBytes + recordLen x ≤ maxNodeBytes)
    (hmax : 0 < limits.maxRecords) : ∀ l ∈ (limits.rule recordLen key).cut [] xs,
      l.length ≤ limits.maxRecords ∧ limits.size recordLen l ≤ maxNodeBytes := by
  apply Rule.forall_cut
  · intro x hx
    refine ⟨hmax, ?_⟩
    simpa [size] using hfit x hx
  · intro o x _ _ hfits
    simp only [rule, overflows, Bool.not_eq_true', Bool.or_eq_false_iff, decide_eq_false_iff_not,
      not_le, not_lt] at hfits
    refine ⟨?_, ?_⟩
    · rw [length_append]
      exact hfits.1
    · simpa [size, Nat.add_assoc] using hfits.2
  · intro h
    exact absurd rfl h

theorem SegmentLimits.length_cut (hr : ∀ x ∈ xs, recordLen x ≤ r)
    (hk : limits.headerBytes + k * r < maxNodeBytes) (hmin : k ≤ limits.minRecords)
    (hmax : k ≤ limits.maxRecords) (hne : xs ≠ []) :
    (((limits.rule recordLen key).cut [] xs).length - 1) * k < xs.length := by
  apply Rule.length_cut rfl hne
  intro l x hx hl hend
  by_contra hlt
  rw [not_le] at hlt
  have hsub := (Rule.infix_of_mem_cut hl).subset
  have hsize : limits.size recordLen l + r < maxNodeBytes := by
    have := limits.size_le fun y hy => hr y (hsub hy)
    have hmul : (l.length + 1) * r ≤ k * r := Nat.mul_le_mul_right _ hlt
    rw [Nat.add_mul, Nat.one_mul] at hmul
    omega
  have hx := hr x hx
  rcases hend with hcloses | hfits
  · simp only [rule, ends, Option.any_eq_true, Bool.or_eq_true, Bool.and_eq_true,
      decide_eq_true_eq] at hcloses
    obtain ⟨y, -, h⟩ := hcloses
    omega
  · simp only [rule, overflows, Bool.not_eq_false', Bool.or_eq_true, decide_eq_true_eq] at hfits
    omega

end Limits

theorem leafRecordLen_le_path (h : validatePath entry.path = .ok ()) : leafRecordLen entry ≤ 4146 := by
  have hle : entry.path.utf8ByteSize ≤ 4096 := (validatePath_size h).2
  rw [leafRecordLen]
  omega

theorem rangeRecordLen_le_path {range} (h : validateRange range = .ok ()) : rangeRecordLen range ≤ 8240 := by
  have hv := validateRange_eq_ok.1 h
  have hmin : range.minPath.utf8ByteSize ≤ 4096 := (validatePath_size hv.minPath).2
  have hmax : range.maxPath.utf8ByteSize ≤ 4096 := (validatePath_size hv.maxPath).2
  rw [rangeRecordLen]
  omega

theorem validateEntries_sublist (h : validateEntries l = .ok ()) (hs : l'.Sublist l) :
    validateEntries l' = .ok () := by
  obtain ⟨hlen, hpaths, hsort⟩ := validateEntries_eq_ok.1 h
  exact validateEntries_eq_ok.2
    ⟨hs.length_le.trans hlen, fun e he => hpaths e (hs.subset he), hsort.sublist hs⟩

theorem storeLeaf_of_fits {l : List FileEntry} (hne : l ≠ []) (hv : validateEntries l = .ok ())
    (hlen : l.length ≤ maxLeafEntries)
    (hsize : leafHeaderBytes + (l.map leafRecordLen).sum ≤ maxNodeBytes) :
    ∃ range chunk, storeLeaf hashBytes l = .ok (range, chunk) := by
  have hfirst := head?_eq_some_head hne
  have hlast := getLast?_eq_some_getLast hne
  exact ⟨_, _, storeLeaf_iff.2 ⟨encodeLeaf_eq_ok.2 ⟨hv, hlen, hsize, rfl⟩, _, _, hfirst, hlast, rfl⟩⟩

theorem storeLeaf_cut (hv : validateEntries entries = .ok ()) :
    ∃ leaves, (leafRule.cut [] entries).mapM (storeLeaf hashBytes) = .ok leaves := by
  have hpaths := (validateEntries_eq_ok.1 hv).2.1
  have hfits := (@SegmentLimits.cut_fits _ leafLimits _ (fun entry => asBytes entry.path)) (fun x hx => leafRecordLen_le (hpaths x hx)) (by decide)
  apply mapM_of_forall
  intro l hl
  obtain ⟨hlen, hsize⟩ := hfits l hl
  have hvl := validateEntries_sublist hv (Rule.infix_of_mem_cut hl).sublist
  obtain ⟨range, chunk, h⟩ := storeLeaf_of_fits (Rule.ne_nil_of_mem_cut hl) hvl hlen hsize
  exact ⟨_, h⟩

theorem ordered_of_slices {α : Type} {lo hi : α → String} {slices : List (List α)}
    {ranges : List RangeRef} (h : List.Forall₂ (fun slice r => ∃ a b, slice.head? = some a ∧
      slice.getLast? = some b ∧ r.minPath = lo a ∧ r.maxPath = hi b ∧ lo a ≤ hi b) slices ranges)
    (hc : slices.flatten.IsChain fun a b => hi a < lo b) : Ordered ranges := by
  induction h with
  | nil => exact .nil
  | @cons slice r slices ranges hr hrest ih =>
    rw [flatten_cons, isChain_append] at hc
    obtain ⟨-, hc', hcross⟩ := hc
    cases hrest with
    | nil => exact .singleton _
    | @cons slice' r' slices' ranges' hr' hrest' =>
      obtain ⟨a, b, ha, hb, -, hmax, -⟩ := hr
      obtain ⟨a', b', ha', hb', hmin', hmax', hle'⟩ := hr'
      have hlt : hi b < lo a' := by
        apply hcross b hb a'
        rw [flatten_cons, head?_append, ha']
        rfl
      refine .cons_cons ?_ (ih hc')
      rw [hmax, hmin', hmax']
      exact ⟨hlt, hlt.trans_le hle'⟩

theorem validateRanges_storeLeaf {slices : List (List FileEntry)} {leaves : List (RangeRef × Bytes)}
    (h : slices.mapM (storeLeaf hashBytes) = .ok leaves)
    (hs : Sorted FileEntry.path slices.flatten) :
    validateRanges (leaves.map Prod.fst) 0 = .ok () := by
  have hall := mapM_eq_ok.1 h
  refine validateRanges_eq_ok.2 ⟨?_, ?_⟩
  · intro r hr
    obtain ⟨leaf, hleaf, rfl⟩ := mem_map.1 hr
    obtain ⟨slice, -, hslice⟩ := mem_right_of_forall₂ hall hleaf
    exact ⟨(storeLeaf_eq_ok hslice).2.2.2.1, validateRange_eq_ok.2 (validRange_of_storeLeaf hslice)⟩
  · apply ordered_of_slices
    · apply forall₂_map_right_iff.2
      apply hall.imp
      intro slice leaf hslice
      have hv := validRange_of_storeLeaf hslice
      obtain ⟨-, a, b, ha, hb, heq⟩ := storeLeaf_iff.1 hslice
      rw [heq] at hv ⊢
      exact ⟨a, b, ha, hb, rfl, rfl, hv.ordered⟩
    · exact hs.isChain

theorem countOf_storeLeaf {slices : List (List FileEntry)}
    (h : slices.mapM (storeLeaf hashBytes) = .ok leaves) :
    countOf (leaves.map Prod.fst) = slices.flatten.length := by
  have hall := mapM_eq_ok.1 h
  clear h
  induction hall with
  | nil => rfl
  | @cons slice leaf slices leaves hslice hrest ih =>
    obtain ⟨henc, a, b, -, -, heq⟩ := storeLeaf_iff.1 hslice
    have hcap := (encodeLeaf_eq_ok.1 henc).2.1
    have hcount : leaf.1.fileCount.toNat = slice.length := by
      rw [heq]
      exact UInt64.toNat_ofNat_of_lt' (lt_of_le_of_lt hcap (by decide))
    rw [map_cons, countOf_cons, hcount, ih, flatten_cons, length_append]

theorem denotes_storeLeaf {slices : List (List FileEntry)}
    (h : slices.mapM (storeLeaf hashBytes) = .ok leaves)
    (hstore : store.Holds hashBytes (leaves.map Prod.snd)) :
    Denotes hashBytes store (leaves.map Prod.fst) (leaves.map Prod.fst) slices.flatten
      leaves.length := by
  have hall := mapM_eq_ok.1 h
  clear h
  induction hall with
  | nil => exact .nil
  | @cons slice leaf slices leaves hslice hrest ih =>
    apply Denotes.leaf (storeLeaf_eq_ok hslice).2.2.2.1
    · exact loadNode_storeLeaf hslice (hstore leaf.2 mem_cons_self)
    · exact ih fun c hc => hstore c (mem_cons_of_mem _ hc)

theorem countOf_sublist (h : rs.Sublist rs') : countOf rs ≤ countOf rs' :=
  (h.map _).sum_le_sum fun _ _ => Nat.zero_le _

theorem countOf_pos {ranges} (hne : ranges ≠ []) (hv : ∀ r ∈ ranges, validateRange r = .ok ()) :
    0 < countOf ranges := by
  cases ranges with
  | nil => exact absurd rfl hne
  | cons r ranges =>
    have hpos := (validateRange_eq_ok.1 (hv r mem_cons_self)).count_pos
    rw [countOf_cons]
    apply Nat.add_pos_left
    apply Nat.pos_of_ne_zero
    intro h0
    exact hpos (UInt64.toNat_inj.1 h0)

theorem validateRanges_infix (h : validateRanges rs height = .ok ()) (hs : rs' <:+: rs) :
    validateRanges rs' height = .ok () := by
  obtain ⟨hvalid, hordered⟩ := validateRanges_eq_ok.1 h
  exact validateRanges_eq_ok.2 ⟨fun r hr => hvalid r (hs.subset hr), hordered.infix hs⟩

theorem storeInternal_cut {ranges} (hv : validateRanges ranges height = .ok ())
    (hle : countOf ranges ≤ maxLoadedEntries) :
    ∃ parents, (internalRule.cut [] ranges).mapM (storeInternal hashBytes height) = .ok parents := by
  have hvr := fun r hr => ((validateRanges_eq_ok.1 hv).1 r hr).2
  have hfits := (@SegmentLimits.cut_fits _ internalLimits _ (fun range => asBytes range.maxPath)) (fun x hx => rangeRecordLen_le (hvr x hx)) (by decide)
  apply mapM_of_forall
  intro l hl
  obtain ⟨hlen, hsize⟩ := hfits l hl
  have hne : l ≠ [] := Rule.ne_nil_of_mem_cut hl
  have hin : l <:+: ranges := Rule.infix_of_mem_cut hl
  have henc := (encodeInternal_eq_ok).2 ⟨hne, hlen, validateRanges_infix hv hin, hsize, rfl⟩
  have hlt : countOf l < 2 ^ 64 :=
    lt_of_le_of_lt ((countOf_sublist hin.sublist).trans hle) (by decide)
  have hsum : sumFileCount l = .ok (UInt64.ofNat (countOf l)) :=
    sumFileCount_eq_ok.2 (UInt64.toNat_ofNat_of_lt' hlt).symm
  exact ⟨_, storeInternal_iff.2 ⟨henc, _, _, _, hsum, head?_eq_some_head hne,
    getLast?_eq_some_getLast hne, rfl⟩⟩

section Level

variable {slices : List (List RangeRef)} {parents : List (RangeRef × Bytes)}
  (h : slices.mapM (storeInternal hashBytes height) = .ok parents)
include h

theorem countOf_storeInternal : countOf (parents.map Prod.fst) = countOf slices.flatten := by
  have hall := mapM_eq_ok.1 h
  clear h
  induction hall with
  | nil => rfl
  | @cons slice parent slices parents hslice hrest ih =>
    obtain ⟨-, fileCount, a, b, hsum, -, -, heq⟩ := storeInternal_iff.1 hslice
    rw [map_cons, countOf_cons, ih, flatten_cons, countOf_append, sumFileCount_eq_ok.1 hsum, heq]

variable (hh : height < maxTreeDepth) (hle : countOf slices.flatten ≤ maxLoadedEntries)
include hh hle

theorem storeInternal_valid : List.Forall₂ (fun slice parent =>
    storeInternal hashBytes height slice = .ok parent ∧ parent.1.fileCount ≠ 0 ∧
      parent.1.fileCount.toNat ≤ maxLoadedEntries ∧ ValidRange parent.1) slices parents := by
  have hall := mapM_eq_ok.1 h
  clear h
  induction hall with
  | nil => exact .nil
  | @cons slice parent slices parents hslice hrest ih =>
    rw [flatten_cons, countOf_append] at hle
    have hle' : countOf slices.flatten ≤ maxLoadedEntries := (Nat.le_add_left _ _).trans hle
    obtain ⟨henc, fileCount, a, b, hsum, -, -, heq⟩ := storeInternal_iff.1 hslice
    obtain ⟨hne, -, hv, -⟩ := encodeInternal_eq_ok.1 henc
    have hcount : countOf slice = parent.1.fileCount.toNat := by
      rw [sumFileCount_eq_ok.1 hsum, heq]
    have hpos : parent.1.fileCount ≠ 0 := by
      have hp := countOf_pos hne fun r hr => ((validateRanges_eq_ok.1 hv).1 r hr).2
      intro h0
      rw [hcount, h0] at hp
      exact absurd hp (by decide)
    have hcap : parent.1.fileCount.toNat ≤ maxLoadedEntries :=
      hcount ▸ (Nat.le_add_right _ _).trans hle
    exact .cons ⟨hslice, hpos, hcap, validRange_of_storeInternal hslice hh hpos hcap⟩ (ih hle')

theorem validateRanges_storeInternal (hv : validateRanges slices.flatten height = .ok ()) :
    validateRanges (parents.map Prod.fst) (height + 1) = .ok () := by
  have hvalid := storeInternal_valid h hh hle
  refine validateRanges_eq_ok.2 ⟨?_, ?_⟩
  · intro r hr
    obtain ⟨parent, hparent, rfl⟩ := mem_map.1 hr
    obtain ⟨slice, -, hslice, -, -, hr⟩ := mem_right_of_forall₂ hvalid hparent
    exact ⟨(storeInternal_eq_ok hslice).2.2, validateRange_eq_ok.2 hr⟩
  · apply ordered_of_slices
    · apply forall₂_map_right_iff.2
      apply hvalid.imp
      rintro slice parent ⟨hslice, -, -, hr⟩
      obtain ⟨-, fileCount, a, b, -, ha, hb, heq⟩ := storeInternal_iff.1 hslice
      rw [heq] at hr ⊢
      exact ⟨a, b, ha, hb, rfl, rfl, hr.ordered⟩
    · apply (validateRanges_eq_ok.1 hv).2.imp
      rintro a b ⟨hlt, -⟩
      exact hlt

theorem denotes_storeInternal (hstore : store.Holds hashBytes (parents.map Prod.snd))
    (hd : Denotes hashBytes store slices.flatten ls es n) :
    Denotes hashBytes store (parents.map Prod.fst) ls es (n + parents.length) := by
  have hvalid := storeInternal_valid h hh hle
  clear h hle
  induction hvalid generalizing ls es n with
  | nil => exact hd
  | @cons slice parent slices parents hslice hrest ih =>
    obtain ⟨hslice, hpos, hcap, -⟩ := hslice
    obtain ⟨l, l', e, e', m, m', rfl, rfl, rfl, hd, hd'⟩ := Denotes.split hd
    have hnz : parent.1.height ≠ 0 := by
      rw [(storeInternal_eq_ok hslice).2.2]
      exact height_succ_ne_zero hh
    have hload := loadNode_storeInternal hslice hh hpos hcap (hstore parent.2 mem_cons_self)
    have hrest' := ih (fun c hc => hstore c (mem_cons_of_mem _ hc)) hd'
    have hall := Denotes.node hnz hload (hd.append hrest')
    rw [length_cons, ← Nat.add_assoc, Nat.add_assoc m]
    exact hall

end Level

theorem rootLevels_turn (hh : first.height < maxTreeDepth)
    (hv : validateRanges (first :: second :: rest) first.height = .ok ())
    (hp : (internalRule.cut [] (first :: second :: rest)).mapM
      (storeInternal hashBytes first.height) = .ok parents) :
    rootLevels hashBytes (fuel + 1) (first :: second :: rest) emitted chunks =
      rootLevels hashBytes fuel (parents.map Prod.fst) (emitted + parents.length)
        (chunks ++ parents.map Prod.snd) := by
  have hvr := fun r hr => ((validateRanges_eq_ok.1 hv).1 r hr).2
  obtain ⟨segments, hseg, hslices, hlast⟩ := segmentRanges_spec hvr
  have hcut : segments.map (·.slice (first :: second :: rest)) =
      internalRule.cut [] (first :: second :: rest) :=
    Segmented.slices_eq_cut ⟨segments, rfl, hslices, hlast⟩
  have hstored : segments.mapM (fun segment => storeInternal hashBytes first.height
      (segment.slice (first :: second :: rest))) = .ok parents := by
    rw [← hcut, mapM_map] at hp
    exact hp
  have hreject : reject (maxTreeDepth ≤ first.height) "Tree v2 exceeds the depth limit" = .ok () :=
    reject_eq_ok.2 (decide_eq_false (UInt16.not_le.2 hh))
  rw [rootLevels, hreject]
  change (validateRanges _ _ >>= _) = _
  rw [hv]
  change (segmentRanges _ >>= _) = _
  rw [hseg]
  change (segments.mapM (fun segment => storeInternal hashBytes first.height
    (segment.slice (first :: second :: rest))) >>= _) = _
  rw [hstored]
  rfl

theorem rootLevels_ok {ranges : List RangeRef} (hne : ranges ≠ []) (hlen : ranges.length ≤ 31 ^ k)
    (hv : validateRanges ranges height = .ok ()) (hheight : height.toNat + k ≤ 16) (hfuel : k ≤ fuel)
    (hle : countOf ranges ≤ maxLoadedEntries) :
    ∃ child emitted' put, rootLevels hashBytes fuel ranges emitted chunks =
        .ok (child, emitted + emitted', chunks ++ put) ∧ emitted' * 30 < 31 ^ k ∧
      validateRange child = .ok () ∧ countOf [child] = countOf ranges ∧
      ∀ store ls es n, store.Holds hashBytes put → Denotes hashBytes store ranges ls es n →
        Denotes hashBytes store [child] ls es (n + emitted') := by
  induction k generalizing ranges height fuel emitted chunks with
  | zero =>
    match ranges, hne, hlen with
    | [range], _, _ =>
      have hr := ((validateRanges_eq_ok.1 hv).1 range mem_cons_self).2
      refine ⟨range, 0, [], ?_, by decide, hr, rfl, fun _ _ _ _ _ hd => hd⟩
      rw [append_nil]
      cases fuel <;> rfl
  | succ k ih =>
    match ranges, hne with
    | [range], _ =>
      have hr := ((validateRanges_eq_ok.1 hv).1 range mem_cons_self).2
      refine ⟨range, 0, [], ?_, ?_, hr, rfl, fun _ _ _ _ _ hd => hd⟩
      · rw [append_nil]
        cases fuel <;> rfl
      · exact Nat.pos_of_ne_zero (by simp)
    | first :: second :: rest, hne =>
      have hfirst : first.height = height := ((validateRanges_eq_ok.1 hv).1 first mem_cons_self).1
      subst hfirst
      have hh : first.height < maxTreeDepth := by
        rw [UInt16.lt_iff_toNat_lt]
        exact Nat.lt_of_lt_of_le (Nat.lt_add_of_pos_right k.succ_pos) hheight
      obtain ⟨parents, hp⟩ := storeInternal_cut hv hle
      have hflat : (internalRule.cut [] (first :: second :: rest)).flatten = first :: second :: rest :=
        Rule.flatten_cut
      have hvr := fun r hr => ((validateRanges_eq_ok.1 hv).1 r hr).2
      have hcount := countOf_storeInternal hp
      rw [hflat] at hcount
      have hv' := validateRanges_storeInternal hp hh (hflat.symm ▸ hle) (hflat.symm ▸ hv)
      have hshort : (parents.length - 1) * 31 < 31 ^ (k + 1) := by
        have hlt := @SegmentLimits.length_cut _ internalLimits _ (fun range => asBytes range.maxPath) _ _ 31 (fun r hr => rangeRecordLen_le_path (hvr r hr))
          (by decide) (by decide) (by decide) hne
        rw [← (mapM_eq_ok.1 hp).length_eq]
        exact lt_of_lt_of_le hlt hlen
      rw [pow_succ] at hshort
      have hparents : parents ≠ [] := by
        rintro rfl
        have hpos := countOf_pos hne hvr
        rw [← hcount] at hpos
        exact absurd hpos (by decide)
      obtain ⟨fuel, rfl⟩ : ∃ m, fuel = m + 1 := Nat.exists_eq_add_one.2 (Nat.zero_lt_of_lt hfuel)
      have hheight' : (first.height + 1).toNat + k ≤ 16 := by
        rw [height_toNat_succ hh]
        omega
      obtain ⟨child, e, put, hlevels, he, hchild, hsame, hdenotes⟩ := ih
        (mt map_eq_nil_iff.1 hparents) (by rw [length_map]; omega) hv' hheight'
        (Nat.le_of_succ_le_succ hfuel) (hcount.symm ▸ hle)
      refine ⟨child, parents.length + e, parents.map Prod.snd ++ put, ?_, ?_, hchild,
        hsame.trans hcount, ?_⟩
      · rw [rootLevels_turn hh hv hp, hlevels, Nat.add_assoc, append_assoc]
      · rw [pow_succ]
        omega
      · intro store ls es n hstore hd
        rw [← Nat.add_assoc]
        apply hdenotes store _ _ _ fun c hc => hstore c (mem_append_right _ hc)
        apply denotes_storeInternal hp hh (hflat.symm ▸ hle) fun c hc =>
          hstore c (mem_append_left _ hc)
        rwa [hflat]

theorem rootFromLeaves_ok {ranges} (hv : validateRanges ranges 0 = .ok ()) (hlen : ranges.length ≤ 31 ^ 4)
    (hle : countOf ranges ≤ maxLoadedEntries) :
    ∃ root emitted put, rootFromLeaves hashBytes ranges = .ok (root, emitted, put) ∧
      emitted * 30 < 31 ^ 4 ∧ validateRootShape root = .ok () ∧
      countOf ranges = root.totalFiles.toNat ∧
      ∀ store ls es n, store.Holds hashBytes put → Denotes hashBytes store ranges ls es n →
        Denotes hashBytes store root.child.toList ls es (n + emitted) := by
  by_cases hne : ranges = []
  · subst hne
    exact ⟨emptyRoot, 0, [], rfl, by decide, rfl, rfl, fun _ _ _ _ _ hd => hd⟩
  have hvr := fun r hr => ((validateRanges_eq_ok.1 hv).1 r hr).2
  obtain ⟨child, emitted, put, hlevels, hemitted, hchild, hcount, hdenotes⟩ :=
    (@rootLevels_ok _ _ _ (maxTreeDepth.toNat + 1)) hne hlen hv (by decide) (by decide) hle
  rw [countOf_cons, countOf_nil, Nat.add_zero] at hcount
  have hsum : sumFileCount ranges = .ok child.fileCount := sumFileCount_eq_ok.2 hcount.symm
  have hpos : 0 < child.fileCount := by
    rw [UInt64.lt_iff_toNat_lt, hcount]
    exact countOf_pos hne hvr
  refine ⟨⟨treeVersion, child.fileCount, some child⟩, emitted, put, ?_, hemitted, ?_, hcount.symm,
    hdenotes⟩
  · rw [rootFromLeaves, if_neg (by simpa using hne), hv]
    change (sumFileCount ranges >>= _) = _
    rw [hsum]
    change (rootLevels hashBytes _ _ _ _ >>= _) = _
    rw [hlevels, Nat.zero_add]
    rfl
  · have hheight := (validateRange_eq_ok.1 hchild).height_le
    simp only [validateRootShape, bind_eq_ok, exists_unit, reject_eq_ok]
    exact ⟨by simp, by simp [hpos, hheight], hchild⟩

theorem loadAllEntries_buildTree {entries : List FileEntry}
    (hv : validateEntries (sortBy FileEntry.path entries) = .ok ()) :
    ∃ root chunks, buildTree hashBytes entries = .ok (root, chunks) ∧
      validateRootShape root = .ok () ∧ ∀ store, ChunkStore.Holds hashBytes store chunks →
        loadAllEntries hashBytes store root = .ok (sortBy FileEntry.path entries) := by
  obtain ⟨hlen, hpaths, hsort⟩ := validateEntries_eq_ok.1 hv
  obtain ⟨leaves, hleaves⟩ := storeLeaf_cut hv
  have hflat : (leafRule.cut [] (sortBy FileEntry.path entries)).flatten =
      sortBy FileEntry.path entries := Rule.flatten_cut
  have hv' := validateRanges_storeLeaf hleaves (hflat.symm ▸ hsort)
  have hcount := countOf_storeLeaf hleaves
  rw [hflat] at hcount
  have hshort : leaves.length ≤ 158731 := by
    rw [← (mapM_eq_ok.1 hleaves).length_eq]
    by_cases hne : sortBy FileEntry.path entries = []
    · rw [hne]
      decide
    · have hlt := @SegmentLimits.length_cut _ leafLimits _ (fun entry => asBytes entry.path) _ _ 63 (fun e he => leafRecordLen_le_path (hpaths e he))
        (by decide) (by decide) (by decide) hne
      have hmax : maxLoadedEntries = 10000000 := rfl
      change ((leafRule.cut [] (sortBy FileEntry.path entries)).length - 1) * 63 < _ at hlt
      omega
  obtain ⟨root, emitted, put, hroot, hemitted, hshape, htotal, hdenotes⟩ :=
    rootFromLeaves_ok hv' (by rw [length_map]; omega) (hcount ▸ hlen)
  refine ⟨root, leaves.map Prod.snd ++ put, buildTree_eq_ok.2
    ⟨hv, leaves, hleaves, emitted, put, hroot, rfl⟩, hshape, ?_⟩
  intro store hstore
  have hd := denotes_storeLeaf hleaves fun c hc => hstore c (mem_append_left _ hc)
  rw [hflat] at hd
  have hd' := hdenotes store _ _ _ (fun c hc => hstore c (mem_append_right _ hc)) hd
  refine loadAllEntries_eq_ok.2 ⟨hshape, _, _, hd', hv', sumFileCount_eq_ok.2 htotal, ?_, hv, ?_⟩
  · have hmax : maxVisitedNodes = 1000000 := rfl
    rw [length_map]
    omega
  · rw [← hcount, htotal, UInt64.ofNat_toNat]

end Obsetync.TreeV2

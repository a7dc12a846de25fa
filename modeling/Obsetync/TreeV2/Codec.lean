import Obsetync.TreeV2.Node
import Obsetync.Fallible

namespace Obsetync.TreeV2
open Wire Fallible Keyed List

@[simp] theorem reject_eq_ok : reject bad message = .ok () ↔ bad = false := by
  cases bad <;> simp [reject]

theorem validatePath_size (h : validatePath path = .ok ()) :
    0 < path.utf8ByteSize ∧ path.utf8ByteSize ≤ maxPathBytes := by
  simp only [validatePath, bind_eq_ok, exists_unit, reject_eq_ok, Bool.or_eq_false_iff,
    decide_eq_false_iff_not, not_lt] at h
  obtain ⟨⟨⟨hne, hle⟩, -⟩, -⟩ := h
  refine ⟨?_, hle⟩
  apply Nat.pos_of_ne_zero
  intro hz
  rw [String.utf8ByteSize_eq_zero_iff.1 hz] at hne
  cases hne

theorem validateEntries_eq_ok :
    validateEntries entries = .ok () ↔ entries.length ≤ maxLoadedEntries ∧
      (∀ e ∈ entries, validatePath e.path = .ok ()) ∧ Sorted FileEntry.path entries := by
  simp only [validateEntries, bind_eq_ok, exists_unit, reject_eq_ok, decide_eq_false_iff_not, not_lt,
    forM_eq_ok]
  have hsort : anyPair (fun a b => b.path ≤ a.path) entries = false ↔
      Sorted FileEntry.path entries := by
    rw [anyPair_eq_false, Sorted]
    have : IsTrans FileEntry fun a b => a.path < b.path := ⟨fun _ _ _ => lt_trans⟩
    rw [← isChain_iff_pairwise]
    simp only [decide_eq_false_iff_not, not_le]
  rw [hsort]

def Ordered (ranges : List RangeRef) : Prop :=
  ranges.IsChain fun a b => a.maxPath < b.minPath ∧ a.maxPath < b.maxPath

theorem validateRanges_eq_ok {ranges} : validateRanges ranges height = .ok () ↔
      (∀ r ∈ ranges, r.height = height ∧ validateRange r = .ok ()) ∧ Ordered ranges := by
  simp only [validateRanges, bind_eq_ok, exists_unit, reject_eq_ok, forM_eq_ok, anyPair_eq_false,
    Bool.or_eq_false_iff, decide_eq_false_iff_not, not_le, not_not, Ordered]

structure ValidRange (range : RangeRef) : Prop where
  minPath : validatePath range.minPath = .ok ()
  maxPath : validatePath range.maxPath = .ok ()
  ordered : range.minPath ≤ range.maxPath
  count_pos : range.fileCount ≠ 0
  count_le : range.fileCount.toNat ≤ maxLoadedEntries
  leaf_count : range.height = 0 → range.fileCount.toNat ≤ maxLeafEntries
  bytes_pos : range.serializedBytes ≠ 0
  bytes_le : range.serializedBytes.toNat ≤ maxNodeBytes
  height_le : range.height ≤ maxTreeDepth

theorem validateRange_eq_ok {range} : validateRange range = .ok () ↔ ValidRange range := by
  simp only [validateRange, bind_eq_ok, exists_unit, reject_eq_ok, Bool.or_eq_false_iff,
    decide_eq_false_iff_not, not_lt, Bool.and_eq_false_iff]
  constructor
  · rintro ⟨hmin, hmax, ⟨⟨⟨⟨⟨ho, hc⟩, hcl⟩, hl⟩, hb⟩, hbl⟩, hh⟩
    exact ⟨hmin, hmax, ho, hc, hcl, fun h => hl.resolve_left (not_not.2 h), hb, hbl,
      UInt16.not_lt.1 hh⟩
  · intro h
    refine ⟨h.minPath, h.maxPath, ⟨⟨⟨⟨⟨h.ordered, h.count_pos⟩, h.count_le⟩, ?_⟩, h.bytes_pos⟩,
      h.bytes_le⟩, UInt16.not_lt.2 h.height_le⟩
    by_cases hz : range.height = 0
    · exact .inr (h.leaf_count hz)
    · exact .inl hz

theorem reads_str (path : String) : Reads (readStr path.utf8ByteSize message) (asBytes path) path := by
  apply Reads.last (reads_take (asBytes_length path))
  intro rest
  rw [fromUtf8_asBytes]
  rfl

theorem reads_hash (hash : FileHash) : Reads (readHash message) hash.val hash := by
  apply Reads.last (reads_take hash.property)
  rw [dif_pos hash.property]
  exact Reads.pure

theorem reads_leafRecord (h : validatePath entry.path = .ok ()) :
    Reads decodeLeafRecord (encodeLeafRecord entry) entry := by
  obtain ⟨hpos, hle⟩ := validatePath_size h
  simp only [encodeLeafRecord, append_assoc]
  apply Reads.bind (reads_uint (lt_of_le_of_lt hle (by decide)))
  apply Reads.ask_bind
  · rw [reject_eq_ok]
    simp [hpos.ne', hle]
  apply Reads.bind (reads_str entry.path)
  apply Reads.ask_bind h
  apply Reads.bind (reads_hash entry.hash)
  apply Reads.bind (reads_uint entry.mtimeMs.toNat_lt)
  apply Reads.last (reads_uint entry.sizeBytes.toNat_lt)
  simp only [UInt64.ofNat_toNat]
  exact Reads.pure

theorem reads_rangeRecord {range} (h : validateRange range = .ok ()) :
    Reads (decodeRangeRef range.height) (rangeRecord range) range := by
  have hv := validateRange_eq_ok.1 h
  obtain ⟨hminpos, hminle⟩ := validatePath_size hv.minPath
  obtain ⟨hmaxpos, hmaxle⟩ := validatePath_size hv.maxPath
  simp only [rangeRecord, append_assoc]
  apply Reads.bind (reads_uint (lt_of_le_of_lt hminle (by decide)))
  apply Reads.bind (reads_uint (lt_of_le_of_lt hmaxle (by decide)))
  apply Reads.ask_bind
  · rw [reject_eq_ok]
    simp [hminpos.ne', hmaxpos.ne', hminle, hmaxle]
  apply Reads.bind (reads_str range.minPath)
  apply Reads.bind (reads_str range.maxPath)
  apply Reads.bind (reads_hash range.hash)
  apply Reads.bind (reads_uint range.fileCount.toNat_lt)
  apply Reads.last (reads_uint range.serializedBytes.toNat_lt)
  simp only [UInt64.ofNat_toNat, UInt32.ofNat_toNat]
  exact Reads.ask_bind h Reads.pure

theorem readAll_eq_ok (h : Reads r bytes a) : readAll r bytes = .ok a := by
  have hr := h []
  rw [append_nil] at hr
  rw [readAll, hr]
  rfl

theorem encodeLeafRecord_length (entry : FileEntry) :
    (encodeLeafRecord entry).length = leafRecordLen entry := by
  simp only [encodeLeafRecord, leafRecordLen, length_append, leBytes_length, asBytes_length,
    entry.hash.property]

theorem rangeRecord_length (range : RangeRef) :
    (rangeRecord range).length = rangeRecordLen range := by
  simp only [rangeRecord, rangeRecordLen, length_append, leBytes_length, asBytes_length,
    range.hash.property]

theorem encodeLeaf_eq_ok : encodeLeaf entries = .ok bytes ↔
    validateEntries entries = .ok () ∧ entries.length ≤ maxLeafEntries ∧
      leafHeaderBytes + (entries.map leafRecordLen).sum ≤ maxNodeBytes ∧
      leafMagic ++ leBytes 4 entries.length ++ entries.flatMap encodeLeafRecord = bytes := by
  simp only [encodeLeaf, bind_eq_ok, exists_unit, reject_eq_ok, decide_eq_false_iff_not, not_lt,
    pure_eq_ok]

theorem encodeRangeRef_eq_ok {range} : encodeRangeRef range = .ok bytes ↔
    validateRange range = .ok () ∧ rangeRecord range = bytes := by
  simp only [encodeRangeRef, bind_eq_ok, exists_unit, reject_eq_ok, decide_eq_false_iff_not, not_le,
    pure_eq_ok]
  constructor
  · rintro ⟨h, -, -, hb⟩
    exact ⟨h, hb⟩
  · rintro ⟨h, hb⟩
    have hv := validateRange_eq_ok.1 h
    exact ⟨h, lt_of_le_of_lt (validatePath_size hv.minPath).2 (by decide),
      lt_of_le_of_lt (validatePath_size hv.maxPath).2 (by decide), hb⟩

theorem mapM_encodeRangeRef {children : List RangeRef}
    (hv : ∀ r ∈ children, validateRange r = .ok ()) :
    children.mapM encodeRangeRef = .ok records ↔ records = children.map rangeRecord := by
  rw [mapM_eq_ok]
  induction children generalizing records with
  | nil => rw [forall₂_nil_left_iff, map_nil]
  | cons r children ih =>
    have ih' := fun records => @ih records fun r hr => hv r (mem_cons_of_mem _ hr)
    rw [forall₂_cons_left_iff, map_cons]
    constructor
    · rintro ⟨record, rest, hr, hrest, rfl⟩
      rw [(ih' rest).1 hrest, (encodeRangeRef_eq_ok.1 hr).2]
    · rintro rfl
      exact ⟨_, _, encodeRangeRef_eq_ok.2 ⟨hv r mem_cons_self, rfl⟩, (ih' _).2 rfl, rfl⟩

theorem encodeInternal_eq_ok {children : List RangeRef} :
    encodeInternal childHeight children = .ok bytes ↔
      children ≠ [] ∧ children.length ≤ maxInternalChildren ∧
      validateRanges children childHeight = .ok () ∧
      internalHeaderBytes + (children.map rangeRecordLen).sum ≤ maxNodeBytes ∧
      internalMagic ++ leBytes 2 childHeight.toNat ++ leBytes 2 0 ++ leBytes 4 children.length ++
        children.flatMap rangeRecord = bytes := by
  simp only [encodeInternal, bind_eq_ok, exists_unit, reject_eq_ok, decide_eq_false_iff_not, not_lt,
    pure_eq_ok, Bool.or_eq_false_iff, isEmpty_eq_false_iff]
  constructor
  · rintro ⟨⟨hne, hle⟩, hv, hb, records, hr, hbytes⟩
    have hvr := fun r hr => ((validateRanges_eq_ok.1 hv).1 r hr).2
    rw [(mapM_encodeRangeRef hvr).1 hr] at hbytes
    exact ⟨hne, hle, hv, hb, hbytes⟩
  · rintro ⟨hne, hle, hv, hb, hbytes⟩
    have hvr := fun r hr => ((validateRanges_eq_ok.1 hv).1 r hr).2
    exact ⟨⟨hne, hle⟩, hv, hb, _, (mapM_encodeRangeRef hvr).2 rfl, hbytes⟩

theorem encodeLeaf_length (h : encodeLeaf entries = .ok bytes) :
    bytes.length = leafHeaderBytes + (entries.map leafRecordLen).sum := by
  obtain ⟨-, -, -, rfl⟩ := encodeLeaf_eq_ok.1 h
  have hmagic : leafMagic.length = 4 := by decide
  simp only [length_append, length_flatMap, leBytes_length, encodeLeafRecord_length,
    hmagic, leafHeaderBytes]

theorem encodeInternal_length (h : encodeInternal childHeight children = .ok bytes) :
    bytes.length = internalHeaderBytes + (children.map rangeRecordLen).sum := by
  obtain ⟨-, -, -, -, rfl⟩ := encodeInternal_eq_ok.1 h
  have hmagic : internalMagic.length = 4 := by decide
  simp only [length_append, length_flatMap, leBytes_length, rangeRecord_length, hmagic,
    internalHeaderBytes]

theorem reads_leaf (hv : ∀ e ∈ entries, validatePath e.path = .ok ()) (hne : entries ≠ [])
    (hle : entries.length ≤ maxLeafEntries) :
    Reads decodeLeaf (leafMagic ++ leBytes 4 entries.length ++ entries.flatMap encodeLeafRecord)
      entries := by
  rw [append_assoc]
  apply Reads.bind (reads_take (by decide))
  apply Reads.bind (reads_uint (lt_of_le_of_lt hle (by decide)))
  apply Reads.ask_bind
  · rw [reject_eq_ok]
    simp [hne, hle]
  exact reads_many entries fun e he => reads_leafRecord (hv e he)

theorem reads_internal (hv : ∀ r ∈ children, r.height = childHeight ∧ validateRange r = .ok ())
    (hne : children ≠ []) (hle : children.length ≤ maxInternalChildren)
    (hh : childHeight < maxTreeDepth) :
    Reads decodeInternal (internalMagic ++ leBytes 2 childHeight.toNat ++ leBytes 2 0 ++
      leBytes 4 children.length ++ children.flatMap rangeRecord) (childHeight, children) := by
  have hchildren : Reads (many (decodeRangeRef childHeight) children.length >>= fun children =>
      pure (childHeight, children)) (children.flatMap rangeRecord) (childHeight, children) := by
    refine Reads.last (reads_many children fun r hr => ?_) Reads.pure
    rw [← (hv r hr).1]
    exact reads_rangeRecord (hv r hr).2
  rw [append_assoc, append_assoc, append_assoc]
  apply Reads.bind (reads_take (by decide))
  apply Reads.bind (reads_uint childHeight.toNat_lt)
  rw [UInt16.ofNat_toNat]
  apply Reads.ask_bind
  · rw [reject_eq_ok]
    simpa using hh
  apply Reads.bind (reads_uint (by decide))
  apply Reads.ask_bind rfl
  apply Reads.bind (reads_uint (lt_of_le_of_lt hle (by decide)))
  apply Reads.ask_bind
  · rw [reject_eq_ok]
    simp [hne, hle]
  exact hchildren

theorem decodeNode_encodeLeaf (hne : entries ≠ []) (h : encodeLeaf entries = .ok bytes) :
    decodeNode bytes = .ok (.leaf entries) := by
  have hlen := encodeLeaf_length h
  obtain ⟨hv, hle, hcap, hbytes⟩ := encodeLeaf_eq_ok.1 h
  have hpaths := (validateEntries_eq_ok.1 hv).2.1
  have hread := readAll_eq_ok (reads_leaf hpaths hne hle)
  rw [hbytes] at hread
  have hmagic : bytes.take 4 = leafMagic := by
    rw [← hbytes, append_assoc]
    exact take_left' (by decide)
  rw [decodeNode, if_pos hmagic, bind_eq_ok]
  refine ⟨(), ?_, ?_⟩
  · rw [reject_eq_ok, Bool.or_eq_false_iff, decide_eq_false_iff_not, decide_eq_false_iff_not, hlen]
    omega
  · rw [bind_eq_ok]
    exact ⟨entries, hread, bind_eq_ok.2 ⟨(), hv, rfl⟩⟩

theorem decodeNode_encodeInternal (hh : childHeight < maxTreeDepth)
    (h : encodeInternal childHeight children = .ok bytes) :
    decodeNode bytes = .ok (.internal childHeight children) := by
  have hlen := encodeInternal_length h
  obtain ⟨hne, hle, hv, hcap, hbytes⟩ := encodeInternal_eq_ok.1 h
  have hread := readAll_eq_ok (reads_internal (validateRanges_eq_ok.1 hv).1 hne hle hh)
  rw [hbytes] at hread
  have hmagic : bytes.take 4 = internalMagic := by
    rw [← hbytes, append_assoc, append_assoc, append_assoc]
    exact take_left' (by decide)
  have hleaf : ¬ bytes.take 4 = leafMagic := by
    rw [hmagic]
    decide
  have hheader : leafHeaderBytes ≤ internalHeaderBytes := by decide
  rw [decodeNode, if_neg hleaf, if_pos hmagic, bind_eq_ok]
  refine ⟨(), ?_, ?_⟩
  · rw [reject_eq_ok, Bool.or_eq_false_iff, decide_eq_false_iff_not, decide_eq_false_iff_not, hlen]
    omega
  · simp only [bind_eq_ok, exists_unit, reject_eq_ok, decide_eq_false_iff_not, hlen, pure_eq_ok]
    exact ⟨by omega, (childHeight, children), hread, hv, rfl⟩

theorem decodeNode_of_loadNode {range} (h : loadNode hashBytes store range = .ok node) :
    validateRange range = .ok () ∧ ∃ bytes, store.get range.hash = .ok bytes ∧
      bytes.length = range.serializedBytes.toNat ∧ hashBytes bytes = range.hash ∧
      decodeNode bytes = .ok node ∧ validateDescriptorForNode range bytes.length node = .ok () := by
  simp only [loadNode, validateLoadedNode, bind_eq_ok, exists_unit, reject_eq_ok, pure_eq_ok,
    Bool.or_eq_false_iff, decide_eq_false_iff_not, not_not] at h
  obtain ⟨hv, bytes, hget, -, ⟨hlen, hhash⟩, node', hdec, hdesc, rfl⟩ := h
  exact ⟨hv, bytes, hget, hlen, hhash, hdec, hdesc⟩

end Obsetync.TreeV2

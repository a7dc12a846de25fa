import Obsetync.TreeV2.Codec

namespace Obsetync.TreeV2
open Wire Fallible Keyed List

variable {bytes more rest : Bytes} {node : V2Node} {message : String} {entries : List FileEntry}
  {children : List RangeRef} {childHeight height : UInt16}

theorem readStr_run {length} (h : readStr length message bytes = .ok (s, rest)) :
    bytes = asBytes s ++ rest ∧ s.utf8ByteSize = length := by
  obtain ⟨raw, mid, hraw, hread⟩ := bind_run.1 h
  obtain ⟨rfl, rfl⟩ := take_run.1 hraw
  obtain ⟨hutf8, rfl⟩ := ask_run.1 hread
  cases hutf : fromUtf8 raw with
  | none =>
    rw [hutf] at hutf8
    cases hutf8
  | some s' =>
    rw [hutf] at hutf8
    cases hutf8
    have hbytes := asBytes_fromUtf8 hutf
    exact ⟨by rw [hbytes], by rw [← asBytes_length, hbytes]⟩

theorem readHash_run {hash : FileHash} (h : readHash message bytes = .ok (hash, rest)) :
    bytes = hash.val ++ rest := by
  obtain ⟨raw, mid, hraw, hread⟩ := bind_run.1 h
  obtain ⟨rfl, hlen⟩ := take_run.1 hraw
  rw [dif_pos hlen] at hread
  obtain ⟨rfl, rfl⟩ := pure_run.1 hread
  rfl

theorem toNat_ofNat_of_uint64 (h : n < 256 ^ 8) : (UInt64.ofNat n).toNat = n :=
  UInt64.toNat_ofNat_of_lt' h

theorem decodeLeafRecord_run {entry : FileEntry} (h : decodeLeafRecord bytes = .ok (entry, rest)) :
    bytes = encodeLeafRecord entry ++ rest ∧ validatePath entry.path = .ok () := by
  obtain ⟨pathLen, b₁, hlen, h⟩ := bind_run.1 h
  obtain ⟨⟨⟩, b₂, hcheck, h⟩ := bind_run.1 h
  obtain ⟨path, b₃, hpath, h⟩ := bind_run.1 h
  obtain ⟨⟨⟩, b₄, hvalid, h⟩ := bind_run.1 h
  obtain ⟨hash, b₅, hhash, h⟩ := bind_run.1 h
  obtain ⟨mtimeMs, b₆, hmtime, h⟩ := bind_run.1 h
  obtain ⟨sizeBytes, b₇, hsize, h⟩ := bind_run.1 h
  obtain ⟨rfl, rfl⟩ := pure_run.1 h
  obtain ⟨rfl, -⟩ := uint_run.1 hlen
  obtain ⟨-, rfl⟩ := ask_run.1 hcheck
  obtain ⟨rfl, rfl⟩ := readStr_run hpath
  obtain ⟨hpathValid, rfl⟩ := ask_run.1 hvalid
  obtain rfl := readHash_run hhash
  obtain ⟨rfl, hmtimeLt⟩ := uint_run.1 hmtime
  obtain ⟨rfl, hsizeLt⟩ := uint_run.1 hsize
  refine ⟨?_, hpathValid⟩
  simp only [encodeLeafRecord, toNat_ofNat_of_uint64 hmtimeLt, toNat_ofNat_of_uint64 hsizeLt,
    append_assoc]

theorem decodeRangeRef_run {range : RangeRef}
    (h : decodeRangeRef height bytes = .ok (range, rest)) :
    bytes = rangeRecord range ++ rest ∧ range.height = height ∧ validateRange range = .ok () := by
  obtain ⟨minLen, b₁, hmin, h⟩ := bind_run.1 h
  obtain ⟨maxLen, b₂, hmax, h⟩ := bind_run.1 h
  obtain ⟨⟨⟩, b₃, hcheck, h⟩ := bind_run.1 h
  obtain ⟨minPath, b₄, hminPath, h⟩ := bind_run.1 h
  obtain ⟨maxPath, b₅, hmaxPath, h⟩ := bind_run.1 h
  obtain ⟨hash, b₆, hhash, h⟩ := bind_run.1 h
  obtain ⟨fileCount, b₇, hcount, h⟩ := bind_run.1 h
  obtain ⟨serializedBytes, b₈, hsize, h⟩ := bind_run.1 h
  obtain ⟨⟨⟩, b₉, hvalid, h⟩ := bind_run.1 h
  obtain ⟨rfl, rfl⟩ := pure_run.1 h
  obtain ⟨rfl, -⟩ := uint_run.1 hmin
  obtain ⟨rfl, -⟩ := uint_run.1 hmax
  obtain ⟨-, rfl⟩ := ask_run.1 hcheck
  obtain ⟨rfl, rfl⟩ := readStr_run hminPath
  obtain ⟨rfl, rfl⟩ := readStr_run hmaxPath
  obtain rfl := readHash_run hhash
  obtain ⟨rfl, hcountLt⟩ := uint_run.1 hcount
  obtain ⟨rfl, hsizeLt⟩ := uint_run.1 hsize
  obtain ⟨hrange, rfl⟩ := ask_run.1 hvalid
  have hword : (UInt32.ofNat serializedBytes).toNat = serializedBytes :=
    UInt32.toNat_ofNat_of_lt' hsizeLt
  refine ⟨?_, rfl, hrange⟩
  simp only [rangeRecord, toNat_ofNat_of_uint64 hcountLt, hword, append_assoc]

theorem readAll_iff : readAll r bytes = .ok a ↔ r bytes = .ok (a, []) := by
  simp only [readAll, bind_eq_ok]
  constructor
  · rintro ⟨⟨a', rest⟩, hr, ⟨⟩, hempty, h⟩
    rw [reject_eq_ok, Bool.not_eq_false', List.isEmpty_iff] at hempty
    cases h
    exact hr.trans (congrArg (fun rest => Except.ok (_, rest)) hempty)
  · intro hr
    exact ⟨(a, []), hr, (), rfl, rfl⟩

theorem decodeLeaf_run (h : decodeLeaf bytes = .ok (entries, rest)) :
    bytes = bytes.take 4 ++ leBytes 4 entries.length ++ entries.flatMap encodeLeafRecord ++ rest ∧
      entries ≠ [] ∧ entries.length ≤ maxLeafEntries ∧
      ∀ e ∈ entries, validatePath e.path = .ok () := by
  obtain ⟨magic, b₁, hmagic, h⟩ := bind_run.1 h
  obtain ⟨count, b₂, hcount, h⟩ := bind_run.1 h
  obtain ⟨⟨⟩, b₃, hcheck, h⟩ := bind_run.1 h
  obtain ⟨rfl, hfour⟩ := take_run.1 hmagic
  obtain ⟨rfl, -⟩ := uint_run.1 hcount
  obtain ⟨hsome, rfl⟩ := ask_run.1 hcheck
  obtain ⟨rfl, rfl, hall⟩ := many_run (fun _ _ _ => decodeLeafRecord_run) h
  rw [reject_eq_ok, Bool.or_eq_false_iff, decide_eq_false_iff_not, decide_eq_false_iff_not, not_lt]
    at hsome
  refine ⟨?_, ?_, hsome.2, hall⟩
  · rw [← hfour, take_left]
    simp only [append_assoc]
  · rintro rfl
    exact hsome.1 rfl

theorem decodeInternal_run (h : decodeInternal bytes = .ok ((childHeight, children), rest)) :
    bytes = bytes.take 4 ++ leBytes 2 childHeight.toNat ++ leBytes 2 0 ++
        leBytes 4 children.length ++ children.flatMap rangeRecord ++ rest ∧
      childHeight < maxTreeDepth ∧ children ≠ [] ∧ children.length ≤ maxInternalChildren := by
  obtain ⟨magic, b₁, hmagic, h⟩ := bind_run.1 h
  obtain ⟨height, b₂, hheight, h⟩ := bind_run.1 h
  obtain ⟨⟨⟩, b₃, hdepth, h⟩ := bind_run.1 h
  obtain ⟨reserved, b₄, hreserved, h⟩ := bind_run.1 h
  obtain ⟨⟨⟩, b₅, hzero, h⟩ := bind_run.1 h
  obtain ⟨count, b₆, hcount, h⟩ := bind_run.1 h
  obtain ⟨⟨⟩, b₇, hcheck, h⟩ := bind_run.1 h
  obtain ⟨children', b₈, hchildren, h⟩ := bind_run.1 h
  obtain ⟨heq, rfl⟩ := pure_run.1 h
  cases heq
  obtain ⟨rfl, hfour⟩ := take_run.1 hmagic
  obtain ⟨rfl, hlt⟩ := uint_run.1 hheight
  obtain ⟨hlow, rfl⟩ := ask_run.1 hdepth
  obtain ⟨rfl, -⟩ := uint_run.1 hreserved
  obtain ⟨hnone, rfl⟩ := ask_run.1 hzero
  obtain ⟨rfl, -⟩ := uint_run.1 hcount
  obtain ⟨hsome, rfl⟩ := ask_run.1 hcheck
  obtain ⟨rfl, rfl, -⟩ := many_run (fun _ _ _ => decodeRangeRef_run) hchildren
  rw [reject_eq_ok, decide_eq_false_iff_not, UInt16.not_le] at hlow
  rw [reject_eq_ok, decide_eq_false_iff_not, not_not] at hnone
  rw [reject_eq_ok, Bool.or_eq_false_iff, decide_eq_false_iff_not, decide_eq_false_iff_not, not_lt]
    at hsome
  have hword : (UInt16.ofNat height).toNat = height := UInt16.toNat_ofNat_of_lt' hlt
  refine ⟨?_, hlow, ?_, hsome.2⟩
  · rw [← hfour, take_left, hword, hnone]
    simp only [append_assoc]
  · rintro rfl
    exact hsome.1 rfl

theorem decodeNode_cases (h : decodeNode bytes = .ok node) : bytes.length ≤ maxNodeBytes ∧
      ((∃ entries, node = .leaf entries ∧ bytes.take 4 = leafMagic ∧
          decodeLeaf bytes = .ok (entries, []) ∧ validateEntries entries = .ok ()) ∨
        ∃ childHeight children, node = .internal childHeight children ∧
          bytes.take 4 = internalMagic ∧
          decodeInternal bytes = .ok ((childHeight, children), []) ∧
          validateRanges children childHeight = .ok ()) := by
  obtain ⟨⟨⟩, hlen, h⟩ := bind_eq_ok.1 h
  rw [reject_eq_ok, Bool.or_eq_false_iff, decide_eq_false_iff_not, not_lt] at hlen
  refine ⟨hlen.1, ?_⟩
  split_ifs at h with hleaf hinternal
  · obtain ⟨entries, hread, h⟩ := bind_eq_ok.1 h
    obtain ⟨⟨⟩, hvalid, h⟩ := bind_eq_ok.1 h
    cases h
    exact .inl ⟨entries, rfl, hleaf, readAll_iff.1 hread, hvalid⟩
  · obtain ⟨⟨⟩, -, h⟩ := bind_eq_ok.1 h
    obtain ⟨⟨childHeight, children⟩, hread, h⟩ := bind_eq_ok.1 h
    obtain ⟨⟨⟩, hvalid, h⟩ := bind_eq_ok.1 h
    cases h
    exact .inr ⟨childHeight, children, rfl, hinternal, readAll_iff.1 hread, hvalid⟩

theorem decodeNode_leaf_iff :
    decodeNode bytes = .ok (.leaf entries) ↔ entries ≠ [] ∧ encodeLeaf entries = .ok bytes := by
  refine ⟨fun h => ?_, fun h => decodeNode_encodeLeaf h.1 h.2⟩
  obtain ⟨hlen, ⟨entries', heq, hmagic, hread, hvalid⟩ | ⟨childHeight, children, heq, -⟩⟩ :=
    decodeNode_cases h
  · cases heq
    obtain ⟨hbytes, hne, hle, -⟩ := decodeLeaf_run hread
    rw [append_nil, hmagic] at hbytes
    refine ⟨hne, encodeLeaf_eq_ok.2 ⟨hvalid, hle, ?_, hbytes.symm⟩⟩
    have hcount : leafMagic.length = 4 := by decide
    have hsize : bytes.length = leafHeaderBytes + (entries.map leafRecordLen).sum := by
      rw [hbytes]
      simp only [length_append, length_flatMap, leBytes_length, encodeLeafRecord_length,
        hcount, leafHeaderBytes]
    rwa [← hsize]
  · cases heq

theorem decodeNode_internal_iff : decodeNode bytes = .ok (.internal childHeight children) ↔
      childHeight < maxTreeDepth ∧ encodeInternal childHeight children = .ok bytes := by
  refine ⟨fun h => ?_, fun h => decodeNode_encodeInternal h.1 h.2⟩
  obtain ⟨hlen, ⟨entries', heq, -⟩ | ⟨childHeight', children', heq, hmagic, hread, hvalid⟩⟩ :=
    decodeNode_cases h
  · cases heq
  · cases heq
    obtain ⟨hbytes, hdepth, hne, hle⟩ := decodeInternal_run hread
    rw [append_nil, hmagic] at hbytes
    refine ⟨hdepth, encodeInternal_eq_ok.2 ⟨hne, hle, hvalid, ?_, hbytes.symm⟩⟩
    have hcount : internalMagic.length = 4 := by decide
    have hsize : bytes.length = internalHeaderBytes + (children.map rangeRecordLen).sum := by
      rw [hbytes]
      simp only [length_append, length_flatMap, leBytes_length, rangeRecord_length,
        hcount, internalHeaderBytes]
    rwa [← hsize]

theorem decodeNode_append_ne (h : decodeNode bytes = .ok node) (hmore : more ≠ [])
    (node' : V2Node) : decodeNode (bytes ++ more) ≠ .ok node' := by
  intro h'
  obtain ⟨-, hnode'⟩ := decodeNode_cases h'
  cases node with
  | leaf entries =>
    obtain ⟨hne, henc⟩ := decodeNode_leaf_iff.1 h
    obtain ⟨hvalid, hle, -, hbytes⟩ := encodeLeaf_eq_ok.1 henc
    have hread := reads_leaf (validateEntries_eq_ok.1 hvalid).2.1 hne hle more
    have hmagic : (bytes ++ more).take 4 = leafMagic := by
      rw [← hbytes, append_assoc, append_assoc]
      exact take_left' (by decide)
    rw [hbytes] at hread
    rcases hnode' with ⟨entries', -, -, hread', -⟩ | ⟨childHeight, children, -, hmagic', -⟩
    · rw [hread, Except.ok.injEq, Prod.mk.injEq] at hread'
      exact hmore hread'.2
    · rw [hmagic] at hmagic'
      exact absurd hmagic' (by decide)
  | internal childHeight children =>
    obtain ⟨hdepth, henc⟩ := decodeNode_internal_iff.1 h
    obtain ⟨hne, hle, hvalid, -, hbytes⟩ := encodeInternal_eq_ok.1 henc
    have hread := reads_internal (validateRanges_eq_ok.1 hvalid).1 hne hle hdepth more
    have hmagic : (bytes ++ more).take 4 = internalMagic := by
      rw [← hbytes]
      simp only [append_assoc]
      exact take_left' (by decide)
    rw [hbytes] at hread
    rcases hnode' with ⟨entries', -, hmagic', -⟩ | ⟨childHeight', children', -, -, hread', -⟩
    · rw [hmagic] at hmagic'
      exact absurd hmagic' (by decide)
    · rw [hread, Except.ok.injEq, Prod.mk.injEq] at hread'
      exact hmore hread'.2

end Obsetync.TreeV2

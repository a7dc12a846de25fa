import Obsetync.TreeV2.Exact
import Obsetync.TreeV2.Faithful
import Obsetync.TreeV2.RangePage

namespace Obsetync.TreeV2
open Fallible Keyed List

variable {hashBytes : Bytes → FileHash} {store : ChunkStore} {range : RangeRef}
  {top : List RangeRef}

/-- What a descriptor says of the internal node it names. -/
structure Heads (range : RangeRef) (childHeight : UInt16) (children : List RangeRef) : Prop where
  ne_nil : children ≠ []
  length_le : children.length ≤ maxInternalChildren
  valid : validateRanges children childHeight = .ok ()
  minPath : children.head?.map RangeRef.minPath = some range.minPath
  maxPath : children.getLast?.map RangeRef.maxPath = some range.maxPath
  count : countOf children = range.fileCount.toNat
  height : range.height.toNat = childHeight.toNat + 1

theorem internal_of_loadNode
    (h : loadNode hashBytes store range = .ok (.internal childHeight children)) :
    Heads range childHeight children := by
  obtain ⟨-, bytes, -, -, -, hdec, hdesc⟩ := decodeNode_of_loadNode h
  obtain ⟨hdepth, hencode⟩ := decodeNode_internal_iff.1 hdec
  obtain ⟨hne, hle, hvalid, -⟩ := encodeInternal_eq_ok.1 hencode
  simp only [validateDescriptorForNode, bind_eq_ok, exists_unit, reject_eq_ok,
    Bool.not_eq_false', Bool.and_eq_true, decide_eq_true_eq] at hdesc
  obtain ⟨-, fileCount, hcount, ⟨⟨⟨hmin, hmax⟩, rfl⟩, -⟩, hheight⟩ := hdesc
  refine ⟨hne, hle, hvalid, hmin, hmax, sumFileCount_eq_ok.1 hcount, ?_⟩
  rw [hheight, height_toNat_succ hdepth]

theorem Ordered.pairwise {ranges} (h : Ordered ranges) :
    ranges.Pairwise fun a b => a.maxPath < b.minPath := by
  have htrans : IsTrans RangeRef fun a b => a.maxPath < b.minPath ∧ a.maxPath < b.maxPath :=
    ⟨fun a b c hab hbc => ⟨hab.2.trans hbc.1, hab.2.trans hbc.2⟩⟩
  exact (isChain_iff_pairwise.1 h).imp And.left

structure Covers (range : RangeRef) (entries : List FileEntry) : Prop where
  sorted : Sorted FileEntry.path entries
  within : ∀ e ∈ entries, range.minPath ≤ e.path ∧ e.path ≤ range.maxPath
  count : entries.length = range.fileCount.toNat

theorem covers_of_leaf (h : loadNode hashBytes store range = .ok (.leaf entries)) :
    range.height = 0 ∧ Covers range entries := by
  obtain ⟨-, bytes, -, -, -, hdec, hdesc⟩ := decodeNode_of_loadNode h
  obtain ⟨hvalid, hmax⟩ := leaf_of_loadNode h
  obtain ⟨-, hencode⟩ := decodeNode_leaf_iff.1 hdec
  obtain ⟨-, hle, -, -⟩ := encodeLeaf_eq_ok.1 hencode
  have hsort : Sorted FileEntry.path entries := (validateEntries_eq_ok.1 hvalid).2.2
  simp only [validateDescriptorForNode, bind_eq_ok, exists_unit, reject_eq_ok,
    Bool.not_eq_false', Bool.and_eq_true, decide_eq_true_eq] at hdesc
  obtain ⟨-, ⟨⟨⟨hfirst, -⟩, hcount⟩, -⟩, hheight⟩ := hdesc
  obtain ⟨first, hhead, hmin⟩ := Option.map_eq_some_iff.1 hfirst
  obtain ⟨rest, rfl⟩ := head?_eq_some_iff.1 hhead
  refine ⟨hheight, hsort, fun e he => ⟨?_, hmax e he⟩, ?_⟩
  · rw [← hmin]
    rcases mem_cons.1 he with rfl | he
    · exact le_rfl
    · exact ((pairwise_cons.1 hsort).1 e he).le
  · have hsmall : maxLeafEntries < 2 ^ 64 := by decide
    rw [hcount, UInt64.toNat_ofNat_of_lt' (lt_of_le_of_lt hle hsmall)]

theorem denotes_ordered {ranges}
    (h : ∀ r ∈ ranges, ∃ ls es n, Denotes hashBytes store [r] ls es n ∧ Covers r es)
    (ho : ranges.Pairwise fun a b => a.maxPath < b.minPath) :
    ∃ ls es n, Denotes hashBytes store ranges ls es n ∧ Sorted FileEntry.path es ∧
      (∀ e ∈ es, ∃ r ∈ ranges, r.minPath ≤ e.path ∧ e.path ≤ r.maxPath) ∧
      es.length = countOf ranges := by
  induction ranges with
  | nil => exact ⟨[], [], 0, .nil, List.Pairwise.nil, nofun, rfl⟩
  | cons r ranges ih =>
    obtain ⟨hfirst, hrest⟩ := pairwise_cons.1 ho
    obtain ⟨l, e, m, hd, hcovers⟩ := h r mem_cons_self
    obtain ⟨ls, es, n, hds, hsort, hwithin, hcount⟩ :=
      ih (fun r' hr' => h r' (mem_cons_of_mem _ hr')) hrest
    refine ⟨l ++ ls, e ++ es, m + n, hd.append hds, hcovers.sorted.append hsort ?_, ?_, ?_⟩
    · intro a ha b hb
      obtain ⟨r', hr', hlower, -⟩ := hwithin b hb
      calc a.path ≤ r.maxPath := (hcovers.within a ha).2
        _ < r'.minPath := hfirst r' hr'
        _ ≤ b.path := hlower
    · intro a ha
      rcases mem_append.1 ha with ha | ha
      · exact ⟨r, mem_cons_self, hcovers.within a ha⟩
      · obtain ⟨r', hr', hr''⟩ := hwithin a ha
        exact ⟨r', mem_cons_of_mem _ hr', hr''⟩
    · rw [length_append, hcovers.count, hcount, countOf_cons]

theorem Heads.within (h : Heads range childHeight children) (hc : child ∈ children) :
    range.minPath ≤ child.minPath ∧ child.maxPath ≤ range.maxPath := by
  obtain ⟨hvalid, hordered⟩ := validateRanges_eq_ok.1 h.valid
  have hself (r : RangeRef) (hr : r ∈ children) : r.minPath ≤ r.maxPath :=
    (validateRange_eq_ok.1 (hvalid r hr).2).ordered
  constructor
  · obtain ⟨first, hhead, hmin⟩ := Option.map_eq_some_iff.1 h.minPath
    obtain ⟨rest, rfl⟩ := head?_eq_some_iff.1 hhead
    rw [← hmin]
    rcases mem_cons.1 hc with rfl | hc
    · exact le_rfl
    · exact (hself first mem_cons_self).trans ((pairwise_cons.1 hordered.pairwise).1 child hc).le
  · obtain ⟨last, hlast, hmax⟩ := Option.map_eq_some_iff.1 h.maxPath
    obtain ⟨front, rfl⟩ := getLast?_eq_some_iff.1 hlast
    rw [← hmax]
    rcases mem_append.1 hc with hc | hc
    · have hlt := (pairwise_append.1 hordered.pairwise).2.2 child hc last mem_cons_self
      exact hlt.le.trans (hself last (mem_append_right _ mem_cons_self))
    · rw [mem_singleton.1 hc]

theorem covers_of_below (hloads : ∀ r, Below hashBytes store top r →
      ∃ node, loadNode hashBytes store r = .ok node) (h : Below hashBytes store top range) :
    ∃ ls es n, Denotes hashBytes store [range] ls es n ∧ Covers range es := by
  generalize hheight : range.height.toNat = height
  induction height using Nat.strong_induction_on generalizing range with
  | _ height ih =>
    obtain ⟨node, hload⟩ := hloads range h
    cases node with
    | leaf entries =>
      obtain ⟨hz, hcovers⟩ := covers_of_leaf hload
      refine ⟨[range], entries, 1, ?_, hcovers⟩
      have hd := Denotes.leaf hz hload .nil
      rwa [append_nil] at hd
    | internal childHeight children =>
      have hheads := internal_of_loadNode hload
      obtain ⟨hvalid, hordered⟩ := validateRanges_eq_ok.1 hheads.valid
      have hbelow (child : RangeRef) (hc : child ∈ children) :
          ∃ ls es n, Denotes hashBytes store [child] ls es n ∧ Covers child es := by
        refine ih child.height.toNat ?_ (.child h hload hc) rfl
        rw [(hvalid child hc).1, ← hheight, hheads.height]
        exact Nat.lt_succ_self _
      obtain ⟨ls, es, n, hd, hsort, hwithin, hcount⟩ := denotes_ordered hbelow hordered.pairwise
      refine ⟨ls, es, n + 1, .node ?_ hload ?_, hsort, fun e he => ?_, hcount.trans hheads.count⟩
      · intro hz
        have hpos := hheads.height
        rw [hz] at hpos
        cases hpos
      · rwa [append_nil]
      · obtain ⟨child, hc, hlower, hupper⟩ := hwithin e he
        exact ⟨(hheads.within hc).1.trans hlower, hupper.trans (hheads.within hc).2⟩

end Obsetync.TreeV2

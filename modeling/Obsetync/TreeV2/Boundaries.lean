import Obsetync.TreeV2.Tree
import Obsetync.TreeV2.Codec
import Obsetync.Segmentation

namespace Obsetync.TreeV2
open Segmentation Fallible Keyed List

variable {α : Type}

def SegmentLimits.size (limits : SegmentLimits) (recordLen : α → Nat) (o : List α) : Nat :=
  limits.headerBytes + (o.map recordLen).sum

/-- The cutting rule of `segment_by`. -/
def SegmentLimits.rule (limits : SegmentLimits) (recordLen : α → Nat) (key : α → Bytes) :
    Rule α where
  fits o x := !limits.overflows o.length (limits.size recordLen o) (recordLen x)
  closes o := o.getLast?.any fun x => limits.ends o.length (limits.size recordLen o) (key x)

/-- Segments as slices of the records, each with its `stable_end`. -/
def slices (records : List α) (segments : List Segment) : List (List α × Bool) :=
  segments.map fun segment => (segment.slice records, segment.stableEnd)

def tagged (r : List (List α) × List α) : List (List α × Bool) :=
  r.1.map (·, true) ++ (unfinished r.2).map (·, false)

def lastStop (segments : List Segment) : Nat := (segments.getLast?.map Segment.stop).getD 0

theorem slice_append (pre rest : List α) (start : Nat) (stable : Bool) :
    Segment.slice ⟨start, pre.length, stable⟩ (pre ++ rest) = pre.drop start := by
  simp [Segment.slice]

theorem segmentLoop_cons (hx : limits.headerBytes + recordLen x ≤ maxNodeBytes) :
    segmentLoop limits recordLen key (x :: rest) index start bytes output =
      if start < index && limits.overflows (index - start) bytes (recordLen x) then
        if limits.ends 1 (limits.headerBytes + recordLen x) (key x) then
          segmentLoop limits recordLen key rest (index + 1) (index + 1) limits.headerBytes
            (output ++ [⟨start, index, true⟩] ++ [⟨index, index + 1, true⟩])
        else segmentLoop limits recordLen key rest (index + 1) index
          (limits.headerBytes + recordLen x) (output ++ [⟨start, index, true⟩])
      else if limits.ends (index - start + 1) (bytes + recordLen x) (key x) then
        segmentLoop limits recordLen key rest (index + 1) (index + 1) limits.headerBytes
          (output ++ [⟨start, index + 1, true⟩])
      else segmentLoop limits recordLen key rest (index + 1) start (bytes + recordLen x) output := by
  have hr : reject (maxNodeBytes < limits.headerBytes + recordLen x)
      "one Tree v2 record exceeds the node cap" = .ok () := by
    rw [reject_eq_ok]
    simpa using hx
  rw [segmentLoop, hr]
  by_cases hc : (start < index && limits.overflows (index - start) bytes (recordLen x)) = true
  · simp only [hc, if_true, Nat.sub_self, Nat.zero_add]
    rfl
  · simp only [hc]
    rfl

/-- A result of the loop: `output` and then the cut `r`, up to the last record. -/
def Segmented (records : List α) (result : Except ChunkError (List Segment))
    (output : List Segment) (r : List (List α) × List α) : Prop :=
  ∃ segments, result = .ok segments ∧ slices records segments = slices records output ++ tagged r ∧
    lastStop segments = records.length

theorem Segmented.cons {records : List α} {segment : Segment}
    (h : Segmented records result (output ++ [segment]) r) (hs : segment.stableEnd = true) :
    Segmented records result output (segment.slice records :: r.1, r.2) := by
  obtain ⟨segments, hok, hslices, hlast⟩ := h
  refine ⟨segments, hok, ?_, hlast⟩
  rw [hslices]
  simp [slices, tagged, hs]

theorem drop_concat (h : start ≤ pre.length) : (pre ++ [x]).drop start = pre.drop start ++ [x] :=
  drop_append_of_le_length h

variable {limits : SegmentLimits} {recordLen : α → Nat} {key : α → Bytes}

theorem SegmentLimits.closes_concat (o : List α) (x : α) :
    (limits.rule recordLen key).closes (o ++ [x]) =
      limits.ends (o.length + 1) (limits.size recordLen o + recordLen x) (key x) := by
  simp [rule, size, Nat.add_assoc]

theorem segmented_settle {pre rest : List α} {x : α} {output : List Segment}
    (ih : ∀ start output, start ≤ (pre ++ [x]).length → lastStop output = start →
      Segmented (pre ++ x :: rest) (segmentLoop limits recordLen key rest (pre.length + 1) start
        (limits.size recordLen ((pre ++ [x]).drop start)) output) output
        ((limits.rule recordLen key).run ((pre ++ [x]).drop start) rest))
    (hs : start ≤ pre.length) (hlast : lastStop output = start) : Segmented (pre ++ x :: rest)
      (if limits.ends (pre.length - start + 1)
          (limits.size recordLen (pre.drop start) + recordLen x) (key x) then
        segmentLoop limits recordLen key rest (pre.length + 1) (pre.length + 1) limits.headerBytes
          (output ++ [⟨start, pre.length + 1, true⟩])
      else segmentLoop limits recordLen key rest (pre.length + 1) start
        (limits.size recordLen (pre.drop start) + recordLen x) output) output
      (((limits.rule recordLen key).settle (pre.drop start ++ [x])).1 ++
        ((limits.rule recordLen key).run ((limits.rule recordLen key).settle
          (pre.drop start ++ [x])).2 rest).1,
        ((limits.rule recordLen key).run ((limits.rule recordLen key).settle
          (pre.drop start ++ [x])).2 rest).2) := by
  have hclose := @SegmentLimits.closes_concat _ limits recordLen key (pre.drop start) x
  rw [length_drop] at hclose
  rw [Rule.settle, hclose]
  split_ifs
  · have h := ih (pre.length + 1) (output ++ [⟨start, pre.length + 1, true⟩]) (by simp)
      (by simp [lastStop])
    rw [drop_eq_nil_of_le (by simp)] at h
    have h' := h.cons rfl
    have hslice : Segment.slice ⟨start, pre.length + 1, true⟩ (pre ++ x :: rest) =
        pre.drop start ++ [x] := by
      have := slice_append (pre ++ [x]) rest start true
      rwa [append_assoc, length_append, drop_concat hs] at this
    rw [hslice] at h'
    exact h'
  · have h := ih start output (by simp; omega) hlast
    rw [drop_concat hs] at h
    have hsize : limits.size recordLen (pre.drop start ++ [x]) =
        limits.size recordLen (pre.drop start) + recordLen x := by
      simp [SegmentLimits.size, Nat.add_assoc]
    rwa [hsize] at h

theorem segmentLoop_spec (pre rest : List α) (start : Nat) (output : List Segment)
    (hstart : start ≤ pre.length) (hlast : lastStop output = start)
    (hfit : ∀ x ∈ rest, limits.headerBytes + recordLen x ≤ maxNodeBytes) :
    Segmented (pre ++ rest) (segmentLoop limits recordLen key rest pre.length start
      (limits.size recordLen (pre.drop start)) output) output
      ((limits.rule recordLen key).run (pre.drop start) rest) := by
  induction rest generalizing pre start output with
  | nil =>
    rw [segmentLoop]
    split_ifs with hlt
    · refine ⟨_, rfl, ?_, ?_⟩
      · have hne : pre.drop start ≠ [] := by simpa using hlt
        simp [slices, tagged, Rule.run, unfinished, hne, Segment.slice]
      · simp [lastStop]
    · have heq : start = pre.length := le_antisymm hstart (not_lt.1 hlt)
      refine ⟨_, rfl, ?_, ?_⟩
      · simp [slices, tagged, Rule.run, unfinished, heq]
      · rw [hlast, heq, append_nil]
  | cons x rest ih =>
    have hx := hfit x mem_cons_self
    have hnext (start' : Nat) (output' : List Segment) (hs : start' ≤ (pre ++ [x]).length)
        (hl : lastStop output' = start') := by
      have h := ih (pre ++ [x]) start' output' hs hl fun y hy => hfit y (mem_cons_of_mem _ hy)
      rw [append_assoc, length_append] at h
      exact h
    have hopen : (start < pre.length &&
        limits.overflows (pre.length - start) (limits.size recordLen (pre.drop start)) (recordLen x))
        = true ↔ pre.drop start ≠ [] ∧
          (limits.rule recordLen key).fits (pre.drop start) x = false := by
      simp [SegmentLimits.rule]
    rw [segmentLoop_cons hx, Rule.run, Rule.step]
    by_cases hc : pre.drop start ≠ [] ∧ (limits.rule recordLen key).fits (pre.drop start) x = false
    · rw [if_pos (hopen.2 hc), if_pos hc]
      have h := @segmented_settle _ _ _ _ _ _ _ _ (output ++ [⟨start, pre.length, true⟩]) hnext (le_refl _) (by simp [lastStop])
      rw [drop_length, Nat.sub_self] at h
      have h' := h.cons rfl
      rw [slice_append] at h'
      simpa [SegmentLimits.size] using h'
    · rw [if_neg (mt hopen.1 hc), if_neg hc]
      exact segmented_settle hnext hstart hlast

theorem SegmentLimits.run_of_small (hmin : limits.minRecords ≤ limits.maxRecords)
    (hlen : (o ++ xs).length < limits.minRecords)
    (hsize : limits.size recordLen (o ++ xs) < maxNodeBytes) :
    (limits.rule recordLen key).run o xs = ([], o ++ xs) := by
  induction xs generalizing o with
  | nil => rw [Rule.run, append_nil]
  | cons x xs ih =>
    have hassoc : o ++ [x] ++ xs = o ++ x :: xs := by rw [append_assoc, singleton_append]
    rw [← hassoc] at hlen hsize
    have hle : limits.size recordLen o + recordLen x ≤ limits.size recordLen (o ++ [x] ++ xs) := by
      simp only [size, map_append, map_cons, map_nil, sum_append, sum_cons, sum_nil]
      omega
    have hlen' : o.length + 1 < limits.minRecords := by
      simp only [length_append, length_cons, length_nil] at hlen
      omega
    have hfits : (limits.rule recordLen key).fits o x = true := by
      simp only [rule, overflows, Bool.not_eq_true', Bool.or_eq_false_iff, decide_eq_false_iff_not]
      omega
    have hcloses : (limits.rule recordLen key).closes (o ++ [x]) = false := by
      rw [closes_concat]
      simp only [ends, Bool.or_eq_false_iff, Bool.and_eq_false_iff, decide_eq_false_iff_not]
      refine ⟨.inl (.inl ?_), ?_, ?_⟩
      · omega
      · omega
      · omega
    have hstep : (limits.rule recordLen key).step o x = ([], o ++ [x]) := by
      simp [Rule.step, Rule.settle, hfits, hcloses]
    rw [Rule.run, hstep, ih hlen hsize, hassoc]
    rfl

theorem segmentBy_spec (hfit : ∀ x ∈ records, limits.headerBytes + recordLen x ≤ maxNodeBytes) :
    Segmented records (segmentBy limits recordLen key records) []
      ((limits.rule recordLen key).run [] records) := by
  have h := @segmentLoop_spec _ _ _ key [] records 0 [] (le_refl _) rfl hfit
  rwa [drop_nil] at h

theorem Segmented.slices_eq_cut
    (h : Segmented records (.ok segments) [] ((limits.rule recordLen key).run [] records)) :
    segments.map (·.slice records) = (limits.rule recordLen key).cut [] records := by
  obtain ⟨segments', hok, hslices, -⟩ := h
  cases hok
  have := congrArg (List.map Prod.fst) hslices
  simpa [slices, tagged, Rule.cut, Function.comp_def] using this

def leafRule : Rule FileEntry :=
  leafLimits.rule leafRecordLen fun entry => asBytes entry.path

def internalRule : Rule RangeRef :=
  internalLimits.rule rangeRecordLen fun range => asBytes range.maxPath

theorem leafRecordLen_le (h : validatePath entry.path = .ok ()) :
    leafHeaderBytes + leafRecordLen entry ≤ maxNodeBytes := by
  have hle := (validatePath_size h).2
  simp only [maxPathBytes] at hle
  simp only [leafHeaderBytes, leafRecordLen, maxNodeBytes]
  omega

theorem rangeRecordLen_le {range} (h : validateRange range = .ok ()) :
    internalHeaderBytes + rangeRecordLen range ≤ maxNodeBytes := by
  have hv := validateRange_eq_ok.1 h
  have hmin := (validatePath_size hv.minPath).2
  have hmax := (validatePath_size hv.maxPath).2
  simp only [maxPathBytes] at hmin hmax
  simp only [internalHeaderBytes, rangeRecordLen, maxNodeBytes]
  omega

theorem segmentEntries_spec (hv : validateEntries entries = .ok ()) :
    Segmented entries (segmentEntries entries) [] (leafRule.run [] entries) := by
  cases entries with
  | nil => exact ⟨[], rfl, rfl, rfl⟩
  | cons e entries =>
    have hpaths := (validateEntries_eq_ok.1 hv).2.1
    rw [segmentEntries, if_neg (by simp), hv]
    exact segmentBy_spec fun x hx => leafRecordLen_le (hpaths x hx)

theorem segmentRanges_spec {ranges} (hv : ∀ r ∈ ranges, validateRange r = .ok ()) :
    Segmented ranges (segmentRanges ranges) [] (internalRule.run [] ranges) := by
  cases ranges with
  | nil => exact ⟨[], rfl, rfl, rfl⟩
  | cons r ranges =>
    rw [segmentRanges, if_neg (by simp)]
    exact segmentBy_spec fun x hx => rangeRecordLen_le (hv x hx)

theorem segmentEntries_eq_ok (h : segmentEntries entries = .ok segments) :
    validateEntries entries = .ok () := by
  cases entries with
  | nil => rfl
  | cons e entries =>
    rw [segmentEntries, if_neg (by simp)] at h
    obtain ⟨_, hv, -⟩ := bind_eq_ok.1 h
    exact hv

theorem run_of_resynchronized (h : segmentEntries entries = .ok segments)
    (hr : resynchronized entries segments last = true) : (leafRule.run [] entries).2 = [] := by
  have hspec := segmentEntries_spec (segmentEntries_eq_ok h)
  rw [h] at hspec
  obtain ⟨segments', hok, hslices, -⟩ := hspec
  cases hok
  by_contra hne
  have hlast := congrArg List.getLast? hslices
  rw [slices, slices, map_nil, nil_append, tagged, unfinished, if_neg hne, getLast?_map] at hlast
  simp only [map_cons, map_nil, getLast?_append, getLast?_singleton, Option.some_or] at hlast
  obtain ⟨segment, hseg, hpair⟩ := Option.map_eq_some_iff.1 hlast
  have hstable : segment.stableEnd = false := congrArg Prod.snd hpair
  rw [resynchronized, hseg] at hr
  simp [hstable] at hr

section

variable {hashBytes : Bytes → FileHash}

theorem storeLeaves_eq (h : segmentEntries entries = .ok segments) :
    storeLeaves hashBytes entries segments =
      (leafRule.cut [] entries).mapM (storeLeaf hashBytes) := by
  have hspec := segmentEntries_spec (segmentEntries_eq_ok h)
  rw [h] at hspec
  have hcut : segments.map (·.slice entries) = leafRule.cut [] entries := hspec.slices_eq_cut
  rw [← hcut, mapM_map]
  rfl

theorem buildTree_eq_ok : buildTree hashBytes entries = .ok (root, chunks) ↔
      validateEntries (sortBy FileEntry.path entries) = .ok () ∧
      ∃ leaves, (leafRule.cut [] (sortBy FileEntry.path entries)).mapM (storeLeaf hashBytes) =
          .ok leaves ∧
        ∃ emitted nodes, rootFromLeaves hashBytes (leaves.map Prod.fst) =
            .ok (root, emitted, nodes) ∧
          leaves.map Prod.snd ++ nodes = chunks := by
  rw [buildTree, bind_eq_ok, exists_unit]
  constructor
  · rintro ⟨hv, h⟩
    refine ⟨hv, ?_⟩
    split_ifs at h with he
    · rw [List.isEmpty_iff.1 he]
      cases h
      exact ⟨[], rfl, 0, [], rfl, rfl⟩
    · simp only [bind_eq_ok, pure_eq_ok] at h
      obtain ⟨segments, hs, leaves, hl, ⟨root', emitted, nodes⟩, hr, heq⟩ := h
      rw [storeLeaves_eq hs] at hl
      cases heq
      exact ⟨leaves, hl, emitted, nodes, hr, rfl⟩
  · rintro ⟨hv, leaves, hl, emitted, nodes, hr, rfl⟩
    refine ⟨hv, ?_⟩
    split_ifs with he
    · rw [List.isEmpty_iff.1 he] at hl
      cases hl
      cases hr
      rfl
    · obtain ⟨segments, hs, -⟩ := segmentEntries_spec hv
      rw [← storeLeaves_eq hs] at hl
      simp only [bind_eq_ok, pure_eq_ok]
      exact ⟨segments, hs, leaves, hl, (root, emitted, nodes), hr, rfl⟩

end

end Obsetync.TreeV2

import Obsetync.TreeV2.RoundTrip

namespace Obsetync.TreeV2
open Segmentation Fallible List

/-- The segments follow one another between the two indices, and none is empty. -/
inductive Tiles : Nat → List Segment → Nat → Prop
  | nil : Tiles n [] n
  | cons {first : Segment} : first.start < first.stop → Tiles first.stop segments m →
    Tiles first.start (first :: segments) m

/-- A record is too large for any node, or the records are cut to nodes within the ceilings. -/
def Cuts (limits : SegmentLimits) (recordLen : α → Nat) (records : List α)
    (result : Except ChunkError (List Segment)) : Prop :=
  (∃ record ∈ records, maxNodeBytes < limits.headerBytes + recordLen record) ∧
    result = .error (invalid "one Tree v2 record exceeds the node cap") ∨
  ∃ segments, result = .ok segments ∧ Tiles 0 segments records.length ∧
    ∀ segment ∈ segments, segment.stop - segment.start ≤ limits.maxRecords ∧
      limits.size recordLen (segment.slice records) ≤ maxNodeBytes

theorem Tiles.concat (h : Tiles n segments k) (hlt : k < m) :
    Tiles n (segments ++ [⟨k, m, stable⟩]) m := by
  induction h with
  | @nil k => exact @Tiles.cons _ _ ⟨k, m, stable⟩ hlt .nil
  | cons hne _ ih => exact .cons hne (ih hlt)

theorem Tiles.stop_le (h : Tiles n segments m) :
    n ≤ m ∧ ∀ segment ∈ segments, segment.stop ≤ m := by
  induction h with
  | nil => exact ⟨le_rfl, nofun⟩
  | cons hne _ ih => exact ⟨hne.le.trans ih.1, forall_mem_cons.2 ih⟩

theorem segmentLoop_tiles
    (h : segmentLoop limits recordLen key records index start bytes output = .ok segments)
    (houtput : Tiles 0 output start) (hstart : start ≤ index) :
    Tiles 0 segments (index + records.length) := by
  induction records generalizing index start bytes output with
  | nil =>
    rw [segmentLoop] at h
    cases h
    split_ifs with hlt
    · exact houtput.concat hlt
    · rwa [le_antisymm hstart (not_lt.1 hlt)] at houtput
  | cons record records ih =>
    rw [segmentLoop] at h
    obtain ⟨-, -, h⟩ := bind_eq_ok.1 h
    rw [length_cons, Nat.add_comm records.length, ← Nat.add_assoc]
    dsimp only at h
    generalize hcut : (decide (start < index) && limits.overflows (index - start) bytes
      (recordLen record)) = cut at h
    have hcuts : Tiles 0 (if cut = true then output ++ [⟨start, index, true⟩] else output)
        (if cut = true then index else start) := by
      cases cut with
      | true =>
        rw [Bool.and_eq_true, decide_eq_true_eq] at hcut
        exact houtput.concat hcut.1
      | false => exact houtput
    have hnext : (if cut = true then index else start) ≤ index := by
      split_ifs
      · exact le_rfl
      · exact hstart
    generalize (if cut = true then output ++ [⟨start, index, true⟩] else output) = output'
      at h hcuts
    generalize (if cut = true then index else start) = start' at h hcuts hnext
    generalize (if cut = true then limits.headerBytes else bytes) + recordLen record = bytes' at h
    split_ifs at h
    · exact ih h (hcuts.concat (Nat.lt_succ_of_le hnext)) le_rfl
    · exact ih h hcuts (hnext.trans (Nat.le_succ _))

theorem segmentLoop_too_large
    (h : ∃ record ∈ records, maxNodeBytes < limits.headerBytes + recordLen record) :
    segmentLoop limits recordLen key records index start bytes output =
      .error (invalid "one Tree v2 record exceeds the node cap") := by
  induction records generalizing index start bytes output with
  | nil =>
    obtain ⟨_, hmem, -⟩ := h
    cases hmem
  | cons record records ih =>
    rw [segmentLoop]
    by_cases hlarge : maxNodeBytes < limits.headerBytes + recordLen record
    · rw [reject, decide_eq_true hlarge]
      rfl
    · rw [exists_mem_cons_iff] at h
      have hrest := h.resolve_left hlarge
      rw [reject, decide_eq_false hlarge]
      exact ite_eq_iff'.2 ⟨fun _ => ih hrest, fun _ => ih hrest⟩

theorem segmentLoop_map : segmentLoop limits recordLen key records index start bytes output =
    segmentLoop limits Prod.fst Prod.snd (records.map fun record => (recordLen record, key record))
      index start bytes output := by
  induction records generalizing index start bytes output with
  | nil => rfl
  | cons record records ih => simp only [segmentLoop, map_cons, ih]

theorem cuts_segmentBy (hmax : 0 < limits.maxRecords) (key : α → Bytes) :
    Cuts limits recordLen records (segmentBy limits recordLen key records) := by
  by_cases hlarge : ∃ record ∈ records, maxNodeBytes < limits.headerBytes + recordLen record
  · exact .inl ⟨hlarge, segmentLoop_too_large hlarge⟩
  have hfit : ∀ record ∈ records, limits.headerBytes + recordLen record ≤ maxNodeBytes :=
    fun record hmem => not_lt.1 fun hlt => hlarge ⟨record, hmem, hlt⟩
  have hspec := @segmentBy_spec _ _ _ key _ hfit
  obtain ⟨segments, hok, -⟩ := id hspec
  have htiles : Tiles 0 segments records.length := by
    simpa using segmentLoop_tiles hok .nil le_rfl
  refine .inr ⟨segments, hok, htiles, fun s hs => ?_⟩
  rw [hok] at hspec
  have hslice : s.slice records ∈ (limits.rule recordLen key).cut [] records := by
    rw [← hspec.slices_eq_cut]
    exact mem_map_of_mem hs
  obtain ⟨hlength, hsize⟩ := SegmentLimits.cut_fits hfit hmax _ hslice
  rw [Segment.slice, length_drop, length_take, min_eq_left (htiles.stop_le.2 s hs)] at hlength
  exact ⟨hlength, hsize⟩

/-- Both uses of `segment_by`, on every list of entries or ranges. Where they cut is a matter of the
paths alone. -/
theorem segment_by_cuts : (∀ entries, Cuts leafLimits leafRecordLen entries
      (segmentBy leafLimits leafRecordLen (fun entry => asBytes entry.path) entries)) ∧
    (∀ ranges, Cuts internalLimits rangeRecordLen ranges
      (segmentBy internalLimits rangeRecordLen (fun range => asBytes range.maxPath) ranges)) ∧
    (∀ entries entries' : List FileEntry, entries.map (·.path) = entries'.map (·.path) →
      segmentBy leafLimits leafRecordLen (fun entry => asBytes entry.path) entries =
        segmentBy leafLimits leafRecordLen (fun entry => asBytes entry.path) entries') ∧
    ∀ ranges ranges' : List RangeRef, ranges.map (fun range => (range.minPath, range.maxPath)) =
        ranges'.map (fun range => (range.minPath, range.maxPath)) →
      segmentBy internalLimits rangeRecordLen (fun range => asBytes range.maxPath) ranges =
        segmentBy internalLimits rangeRecordLen (fun range => asBytes range.maxPath) ranges' := by
  refine ⟨fun _ => cuts_segmentBy (by decide) _, fun _ => cuts_segmentBy (by decide) _,
    fun entries entries' h => ?_, fun ranges ranges' h => ?_⟩
  · have hmap := congrArg (List.map fun path : String =>
      (2 + path.utf8ByteSize + 32 + 8 + 8, asBytes path)) h
    rw [map_map, map_map] at hmap
    rw [segmentBy, segmentBy, segmentLoop_map, @segmentLoop_map _ _ _ _ entries']
    exact congrArg (segmentLoop _ _ _ · _ _ _ _) hmap
  · have hmap := congrArg (List.map fun paths : String × String =>
      (2 + 2 + paths.1.utf8ByteSize + paths.2.utf8ByteSize + 32 + 8 + 4, asBytes paths.2)) h
    rw [map_map, map_map] at hmap
    rw [segmentBy, segmentBy, segmentLoop_map, @segmentLoop_map _ _ _ _ ranges']
    exact congrArg (segmentLoop _ _ _ · _ _ _ _) hmap

/-- A record that no node can hold. -/
theorem segment_by_refuses : ∃ entry : FileEntry,
    segmentBy leafLimits leafRecordLen (fun entry => asBytes entry.path) [entry] =
      .error (invalid "one Tree v2 record exceeds the node cap") := by
  have hsize (n : Nat) : ∃ path : String, path.utf8ByteSize = n := by
    refine ⟨String.ofList (replicate n 'a'), ?_⟩
    rw [String.utf8ByteSize_ofList]
    induction n with
    | zero => rfl
    | succ n ih => rw [replicate_succ, String.utf8Len_cons, ih, Char.utf8Size]; rfl
  obtain ⟨path, hpath⟩ := hsize maxNodeBytes
  refine ⟨⟨path, ⟨replicate 32 0, rfl⟩, 0, 0⟩, segmentLoop_too_large ⟨_, mem_cons_self, ?_⟩⟩
  rw [leafRecordLen, hpath]
  omega

end Obsetync.TreeV2

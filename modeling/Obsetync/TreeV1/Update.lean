import Obsetync.TreeV1.Load
import Obsetync.TreeV1.UnaryCodec
import Obsetync.TreeV2.Canonical

namespace Obsetync.TreeV1
open Keyed Fallible
open List hiding lookup replace

/-- How an update can stop: a chunk that cannot be read, or a count that leaves `u64`. -/
inductive UpdateError
  | chunk (e : ChunkError)
  | arithmetic
  deriving DecidableEq

/-- `total - old + new` in `u64`. -/
def adjustTotal (total old new : UInt64) : Except UpdateError UInt64 :=
  if total < old then .error .arithmetic
  else if 2 ^ 64 ≤ (total - old).toNat + new.toNat then .error .arithmetic
  else .ok (total - old + new)

structure UpdateState where
  children : List (String × FileHash)
  totalFiles : UInt64
  put : List Bytes

section

variable (codec : NodeCodec) (hashBytes : Bytes → FileHash) (store : ChunkStore)

def loadChild (children : List (String × FileHash)) :
    Except Nat Nat → Except UpdateError (List FileEntry)
  | .ok index =>
    match children[index]? with
    | some child => (loadAllEntries codec store child.2).mapError .chunk
    | none => .ok []
  | .error _ => .ok []

/-- One turn of `update_tree`: a prefix with its changed entries and deleted paths. -/
def updatePrefix (pre : String) (adds : List FileEntry) (dels : List String) (state : UpdateState) :
    Except UpdateError UpdateState := do
  let position := search Prod.fst state.children pre
  let existing ← loadChild codec store state.children position
  let entries := mergePrefixEntries existing adds dels
  let total ← adjustTotal state.totalFiles (UInt64.ofNat existing.length)
    (UInt64.ofNat entries.length)
  if entries.isEmpty then
    return ⟨replace state.children position none, total, state.put⟩
  else
    let (hash, put) := buildGroup codec hashBytes pre entries
    return ⟨replace state.children position (some (pre, hash)), total, state.put ++ put⟩

def changedPrefixes (changed : List FileEntry) (deleted : List String) : List String :=
  distinct (changed.map (topLevelPrefix ·.path) ++ deleted.map topLevelPrefix)

/-- The turns over the changed prefixes in order. -/
def updateLoop (changed : List FileEntry) (deleted : List String) :
    List String → UpdateState → Except UpdateError UpdateState
  | [], state => .ok state
  | pre :: pres, state => do
    let state ← updatePrefix codec hashBytes store pre (group changed pre)
      (deleted.filter (topLevelPrefix · = pre)) state
    updateLoop changed deleted pres state

def updateTree (nowMs : UInt64) (root : RootNode) (changed : List FileEntry)
    (deleted : List String) : Except UpdateError (RootNode × List Bytes) := do
  let state ← updateLoop codec hashBytes store changed deleted (changedPrefixes changed deleted)
    ⟨root.children, root.totalFiles, []⟩
  return (⟨root.vaultId, nowMs, root.version, state.children, state.totalFiles,
    some (root.hash hashBytes), root.deviceId⟩, state.put)

end

variable {codec : NodeCodec} {hashBytes : Bytes → FileHash} {store : ChunkStore}

theorem lastEntry_group : lastEntry (group changed pre) q =
      if topLevelPrefix q = pre then lastEntry changed q else none := by
  rw [lastEntry, lastEntry, group, filter_filter]
  split_ifs with hq
  · congr 1
    apply filter_congr
    intro e _
    by_cases he : e.path = q
    · simp [he, hq]
    · simp [he]
  · rw [getLast?_eq_none_iff, filter_eq_nil_iff]
    intro e _ he
    simp only [Bool.and_eq_true, decide_eq_true_eq] at he
    exact hq (he.1 ▸ he.2)

theorem mergePrefixEntries_group (h : Sorted FileEntry.path entries) :
    mergePrefixEntries (group entries pre) (group changed pre)
        (deleted.filter (topLevelPrefix · = pre)) =
      group (mergePrefixEntries entries changed deleted) pre := by
  obtain ⟨hs, hl⟩ := mergePrefixEntries_spec (group_sorted h pre) (group changed pre)
    (deleted.filter (topLevelPrefix · = pre))
  obtain ⟨hs', hl'⟩ := mergePrefixEntries_spec h changed deleted
  apply hs.ext (group_sorted hs' pre)
  intro q
  rw [hl, lookup_group, hl', updatedAt, updatedAt, lookup_group, lastEntry_group]
  by_cases hq : topLevelPrefix q = pre
  · simp [hq]
  · simp [hq]

theorem group_of_untouched (h : Sorted FileEntry.path entries)
    (hpre : pre ∉ changedPrefixes changed deleted) :
    group (mergePrefixEntries entries changed deleted) pre = group entries pre := by
  rw [changedPrefixes, (distinct_spec _).2, mem_append, not_or] at hpre
  have hadds : group changed pre = [] := by
    rw [group, filter_eq_nil_iff]
    intro e he hpath
    exact hpre.1 (mem_map.2 ⟨e, he, of_decide_eq_true hpath⟩)
  have hdels : deleted.filter (topLevelPrefix · = pre) = [] := by
    rw [filter_eq_nil_iff]
    intro p hp hpath
    exact hpre.2 (mem_map.2 ⟨p, hp, of_decide_eq_true hpath⟩)
  rw [← mergePrefixEntries_group h, hadds, hdels]
  obtain ⟨hs, hl⟩ := mergePrefixEntries_spec (group_sorted h pre) [] []
  apply hs.ext (group_sorted h pre)
  intro q
  rw [hl]
  simp [updatedAt, lastEntry]

theorem adjustTotal_eq (hold : old ≤ total) (hlt : total < 2 ^ 64)
    (hnew : total - old + new < 2 ^ 64) :
    adjustTotal (UInt64.ofNat total) (UInt64.ofNat old) (UInt64.ofNat new) =
      .ok (UInt64.ofNat (total - old + new)) := by
  have h1 : (UInt64.ofNat total).toNat = total := UInt64.toNat_ofNat_of_lt' hlt
  have h2 : (UInt64.ofNat old).toNat = old := UInt64.toNat_ofNat_of_lt' (lt_of_le_of_lt hold hlt)
  have h3 : (UInt64.ofNat new).toNat = new :=
    UInt64.toNat_ofNat_of_lt' (lt_of_le_of_lt (Nat.le_add_left _ _) hnew)
  have hle : UInt64.ofNat old ≤ UInt64.ofNat total := by
    rw [UInt64.le_iff_toNat_le, h1, h2]
    exact hold
  have hsub : (UInt64.ofNat total - UInt64.ofNat old).toNat = total - old := by
    rw [UInt64.toNat_sub_of_le _ _ hle, h1, h2]
  rw [adjustTotal, if_neg (UInt64.not_lt.2 hle), if_neg (by rw [hsub, h3]; omega)]
  congr 1
  apply UInt64.toNat.inj
  rw [UInt64.toNat_add, hsub, h3, UInt64.toNat_ofNat_of_lt' hnew, Nat.mod_eq_of_lt hnew]

def mixedCount (entries updated : List FileEntry) (done : List String) : Nat :=
  entries.countP (topLevelPrefix ·.path ∉ done) + updated.countP (topLevelPrefix ·.path ∈ done)

theorem countP_append_pre (entries : List FileEntry) (hpre : pre ∉ done) :
    entries.countP (topLevelPrefix ·.path ∈ done ++ [pre]) =
        entries.countP (topLevelPrefix ·.path ∈ done) + (group entries pre).length ∧
      entries.countP (topLevelPrefix ·.path ∉ done) =
        entries.countP (topLevelPrefix ·.path ∉ done ++ [pre]) + (group entries pre).length := by
  have hlength : (group entries pre).length = entries.countP (topLevelPrefix ·.path = pre) :=
    countP_eq_length_filter.symm
  rw [hlength]
  clear hlength
  induction entries with
  | nil => exact ⟨rfl, rfl⟩
  | cons e entries ih =>
    simp only [countP_cons, ih]
    by_cases he : topLevelPrefix e.path = pre
    · simp [he, hpre]
      omega
    · by_cases hdone : topLevelPrefix e.path ∈ done <;> simp [he, hdone] <;> omega

theorem mixedCount_step (entries updated : List FileEntry) (hpre : pre ∉ done) :
    (group entries pre).length ≤ mixedCount entries updated done ∧
      mixedCount entries updated (done ++ [pre]) =
        mixedCount entries updated done - (group entries pre).length + (group updated pre).length := by
  rw [mixedCount, mixedCount, (countP_append_pre entries hpre).2, (countP_append_pre updated hpre).1]
  omega

theorem mixedCount_le (entries updated : List FileEntry) (done : List String) :
    mixedCount entries updated done ≤ entries.length + updated.length :=
  Nat.add_le_add countP_le_length countP_le_length

section

variable {entries changed : List FileEntry} {deleted : List String} {nowMs : UInt64}
  {vaultId deviceId : String} (hc : codec.Lawful) (hs : Sorted FileEntry.path entries)
  (hstore : store.Holds hashBytes (buildTree codec hashBytes nowMs entries vaultId deviceId).2)
include hc hs hstore

theorem loadChild_eq (hsort : Sorted Prod.fst children)
    (hlook : lookup Prod.fst children pre = (childHash codec hashBytes entries pre).map (pre, ·))
    (hlen : (group entries pre).length ≤ maxLoadedEntries) :
    loadChild codec store children (search Prod.fst children pre) = .ok (group entries pre) := by
  cases hsearch : search Prod.fst children pre with
  | ok index =>
    have hat := getElem?_of_search hsort hsearch
    rw [hlook] at hat
    cases hchild : childHash codec hashBytes entries pre with
    | none =>
      rw [hchild] at hat
      rw [loadChild, hat]
      rw [childHash] at hchild
      split_ifs at hchild with hnil
      rw [hnil]
      rfl
    | some hash =>
      rw [hchild] at hat
      rw [loadChild, hat]
      change (loadAllEntries codec store hash).mapError UpdateError.chunk = _
      rw [loadAllEntries_child hc hs hlen hstore hchild]
      rfl
  | error index =>
    have hnone := lookup_of_search hsort hsearch
    rw [hlook, Option.map_eq_none_iff, childHash] at hnone
    split_ifs at hnone with hnil
    rw [hnil]
    rfl

theorem updatePrefix_ok (hsort : Sorted Prod.fst state.children)
    (hlook : lookup Prod.fst state.children pre =
      (childHash codec hashBytes entries pre).map (pre, ·))
    (hlen : (group entries pre).length ≤ maxLoadedEntries)
    (htotal : state.totalFiles = UInt64.ofNat total) (hold : (group entries pre).length ≤ total)
    (hlt : total < 2 ^ 64) (hnew : total - (group entries pre).length +
      (group (mergePrefixEntries entries changed deleted) pre).length < 2 ^ 64) :
    ∃ children put, updatePrefix codec hashBytes store pre (group changed pre)
        (deleted.filter (topLevelPrefix · = pre)) state =
          .ok ⟨children, UInt64.ofNat (total - (group entries pre).length +
            (group (mergePrefixEntries entries changed deleted) pre).length), put⟩ ∧
      Sorted Prod.fst children ∧ ∀ q, lookup Prod.fst children q =
        if q = pre then (childHash codec hashBytes (mergePrefixEntries entries changed deleted) q).map
          (q, ·) else lookup Prod.fst state.children q := by
  have hload := loadChild_eq hc hs hstore hsort hlook hlen
  have htotal' := adjustTotal_eq hold hlt hnew
  rw [updatePrefix, hload]
  change ∃ children put, ((adjustTotal state.totalFiles (UInt64.ofNat (group entries pre).length)
    (UInt64.ofNat (mergePrefixEntries (group entries pre) (group changed pre)
      (deleted.filter (topLevelPrefix · = pre))).length)) >>= _) = _ ∧ _
  rw [htotal, mergePrefixEntries_group hs, htotal']
  change ∃ children put, (if (group (mergePrefixEntries entries changed deleted) pre).isEmpty = true
    then _ else _) = _ ∧ _
  split_ifs with hempty
  · rw [List.isEmpty_iff] at hempty
    obtain ⟨hsort', hlook'⟩ := @replace_spec _ _ _ _ _ pre hsort none nofun
    refine ⟨_, _, rfl, hsort', fun q => ?_⟩
    rw [hlook']
    split_ifs with hq
    · rw [hq, childHash, if_pos hempty]
      rfl
    · rfl
  · rw [List.isEmpty_iff] at hempty
    obtain ⟨hsort', hlook'⟩ := @replace_spec _ _ _ _ _ pre hsort (some (pre, (buildGroup codec
      hashBytes pre (group (mergePrefixEntries entries changed deleted) pre)).1)) fun _ h => by
        cases h
        rfl
    refine ⟨_, _, rfl, hsort', fun q => (hlook' q).trans ?_⟩
    split_ifs with hq
    · rw [hq, childHash, if_neg hempty]
      rfl
    · rfl

theorem updateLoop_ok {pres done : List String} {state : UpdateState}
    (hpres : Sorted id (done ++ pres)) (hsort : Sorted Prod.fst state.children)
    (hlook : ∀ q, lookup Prod.fst state.children q = (childHash codec hashBytes
      (if q ∈ done then mergePrefixEntries entries changed deleted else entries) q).map (q, ·))
    (htotal : state.totalFiles =
      UInt64.ofNat (mixedCount entries (mergePrefixEntries entries changed deleted) done))
    (hlen : ∀ pre ∈ pres, (group entries pre).length ≤ maxLoadedEntries)
    (hbound : entries.length + (mergePrefixEntries entries changed deleted).length < 2 ^ 64) :
    ∃ state', updateLoop codec hashBytes store changed deleted pres state = .ok state' ∧
      Sorted Prod.fst state'.children ∧
      (∀ q, lookup Prod.fst state'.children q = (childHash codec hashBytes
        (if q ∈ done ++ pres then mergePrefixEntries entries changed deleted else entries) q).map
          (q, ·)) ∧
      state'.totalFiles = UInt64.ofNat
        (mixedCount entries (mergePrefixEntries entries changed deleted) (done ++ pres)) := by
  induction pres generalizing done state with
  | nil =>
    rw [append_nil]
    exact ⟨state, rfl, hsort, hlook, htotal⟩
  | cons pre pres ih =>
    have hnot : pre ∉ done := by
      intro hmem
      exact lt_irrefl _ (hpres.of_append.2.2 pre hmem pre mem_cons_self)
    obtain ⟨hold, hstep⟩ := mixedCount_step entries (mergePrefixEntries entries changed deleted) hnot
    have hle := mixedCount_le entries (mergePrefixEntries entries changed deleted)
    have hlook' := hlook pre
    rw [if_neg hnot] at hlook'
    obtain ⟨children, put, hok, hsort', hnext⟩ := updatePrefix_ok hc hs hstore hsort hlook'
      (hlen pre mem_cons_self) htotal hold (lt_of_le_of_lt (hle done) hbound)
      (hstep ▸ lt_of_le_of_lt (hle (done ++ [pre])) hbound)
    rw [← hstep] at hok
    have happend : done ++ [pre] ++ pres = done ++ pre :: pres := by simp
    obtain ⟨state', hloop, hfinal⟩ := @ih _ ⟨children, _, put⟩ (happend ▸ hpres) hsort' (fun q => by
        rw [hnext]
        by_cases hq : q = pre
        · simp [hq]
        · rw [if_neg hq, hlook]
          simp [hq]) rfl
      (fun pre' hpre' => hlen pre' (mem_cons_of_mem _ hpre'))
    rw [happend] at hfinal
    refine ⟨state', ?_, hfinal⟩
    rw [updateLoop, hok]
    exact hloop

end

theorem prefixes_perm (h : entries.Perm entries') : prefixes entries = prefixes entries' := by
  have hmem (pre : String) : pre ∈ prefixes entries ↔ pre ∈ prefixes entries' := by
    rw [prefixes, prefixes, (distinct_spec _).2, (distinct_spec _).2]
    exact (h.map _).mem_iff
  apply (distinct_spec _).1.eq_of_perm (distinct_spec _).1
  exact (perm_ext_iff_of_nodup (distinct_spec _).1.nodup (distinct_spec _).1.nodup).2 hmem

theorem buildTree_sortBy (h : (entries.map FileEntry.path).Nodup) :
    buildTree codec hashBytes nowMs (sortBy FileEntry.path entries) vaultId deviceId =
      buildTree codec hashBytes nowMs entries vaultId deviceId := by
  have hgroup (pre : String) : sortBy FileEntry.path (group (sortBy FileEntry.path entries) pre) =
      sortBy FileEntry.path (group entries pre) := by
    have hsub : ((group entries pre).map FileEntry.path).Nodup :=
      h.sublist (filter_sublist.map _)
    apply (sortBy_sorted hsub).eq_sortBy
    exact sortBy_perm.trans (sortBy_perm.filter _).symm
  rw [buildTree, buildTree, builtGroups, builtGroups, prefixes_perm sortBy_perm,
    sortBy_perm.length_eq]
  simp only [hgroup]

theorem mixedCount_changed (h : Sorted FileEntry.path entries) :
    mixedCount entries (mergePrefixEntries entries changed deleted)
      (changedPrefixes changed deleted) = (mergePrefixEntries entries changed deleted).length := by
  have hs' := (mergePrefixEntries_spec h changed deleted).1
  have hrest : entries.filter (topLevelPrefix ·.path ∉ changedPrefixes changed deleted) =
      (mergePrefixEntries entries changed deleted).filter
        (topLevelPrefix ·.path ∉ changedPrefixes changed deleted) := by
    apply (h.filter _).ext (hs'.filter _)
    intro q
    rw [lookup_filter_key fun p => decide (topLevelPrefix p ∉ changedPrefixes changed deleted),
      lookup_filter_key fun p => decide (topLevelPrefix p ∉ changedPrefixes changed deleted)]
    split_ifs with hq
    · have hgroup := group_of_untouched h (of_decide_eq_true hq)
      have hlook := lookup_group (mergePrefixEntries entries changed deleted) (topLevelPrefix q) q
      rwa [hgroup, lookup_group, if_pos rfl, if_pos rfl] at hlook
    · rfl
  rw [mixedCount, countP_eq_length_filter, hrest, ← countP_eq_length_filter, add_comm]
  simpa using (length_eq_countP_add_countP
    (fun e : FileEntry => decide (topLevelPrefix e.path ∈ changedPrefixes changed deleted))
    (l := mergePrefixEntries entries changed deleted)).symm

theorem updateTree_of_sorted (hc : codec.Lawful) (hs : Sorted FileEntry.path entries)
    (hstore : store.Holds hashBytes (buildTree codec hashBytes nowMs entries vaultId deviceId).2)
    (hlen : entries.length + (mergePrefixEntries entries changed deleted).length < 2 ^ 64)
    (hfit : ∀ pre ∈ changedPrefixes changed deleted,
      (group entries pre).length ≤ maxLoadedEntries) :
    ∃ root put, updateTree codec hashBytes store nowMs'
        (buildTree codec hashBytes nowMs entries vaultId deviceId).1 changed deleted =
          .ok (root, put) ∧
      root.children = (buildTree codec hashBytes nowMs' (mergePrefixEntries entries changed deleted)
        vaultId deviceId).1.children ∧
      root.totalFiles = UInt64.ofNat (mergePrefixEntries entries changed deleted).length := by
  have hs' := (mergePrefixEntries_spec hs changed deleted).1
  have hstart : mixedCount entries (mergePrefixEntries entries changed deleted) [] =
      entries.length := by
    simp [mixedCount]
  obtain ⟨state, hloop, hsort, hlook, htotal⟩ := @updateLoop_ok _ _ _ _ _ _ _ _ _ hc hs hstore _ _ ⟨(buildTree codec hashBytes nowMs entries vaultId deviceId).1.children,
      UInt64.ofNat entries.length, []⟩ (distinct_spec _).1
    (@children_sorted _ _ _ nowMs vaultId deviceId hs)
    (@lookup_children _ _ _ nowMs vaultId deviceId hs)
    (by rw [hstart]) hfit hlen
  rw [nil_append] at hlook htotal
  refine ⟨_, _, bind_eq_ok.2 ⟨state, hloop, rfl⟩, ?_, ?_⟩
  · apply hsort.ext (children_sorted hs')
    intro q
    rw [hlook, lookup_children hs']
    split_ifs with hq
    · rfl
    · rw [childHash, childHash, group_of_untouched hs hq]
  · rw [← mixedCount_changed hs]
    exact htotal

/-- The update of a built tree is the tree built from the updated entries: the same children, root
hash and file count, as long as no directory it has to read holds more entries than can be loaded. -/
theorem updateTree_eq_buildTree (codec : NodeCodec) (hashBytes : Bytes → FileHash)
    (store : ChunkStore) (nowMs nowMs' : UInt64) (entries changed : List FileEntry)
    (deleted : List String) (vaultId deviceId : String) (hc : codec.Lawful)
    (hnodup : (entries.map FileEntry.path).Nodup)
    (hstore : store.Holds hashBytes (buildTree codec hashBytes nowMs entries vaultId deviceId).2)
    (hlen : entries.length + (updatedEntries entries changed deleted).length < 2 ^ 64)
    (hfit : ∀ pre ∈ changedPrefixes changed deleted,
      (group entries pre).length ≤ maxLoadedEntries) :
    ∃ root put, updateTree codec hashBytes store nowMs'
        (buildTree codec hashBytes nowMs entries vaultId deviceId).1 changed deleted =
          .ok (root, put) ∧
      root.children = (buildTree codec hashBytes nowMs' (updatedEntries entries changed deleted)
        vaultId deviceId).1.children ∧
      root.hash hashBytes = (buildTree codec hashBytes nowMs'
        (updatedEntries entries changed deleted) vaultId deviceId).1.hash hashBytes ∧
      root.totalFiles = (buildTree codec hashBytes nowMs' (updatedEntries entries changed deleted)
        vaultId deviceId).1.totalFiles := by
  obtain ⟨hnodup', -⟩ := updatedEntries_spec hnodup changed deleted
  have hs := sortBy_sorted hnodup
  have hs' := (mergePrefixEntries_spec hs changed deleted).1
  have hupdated := sortBy_updatedEntries hnodup changed deleted
  have hlen' : (updatedEntries entries changed deleted).length =
      (mergePrefixEntries (sortBy FileEntry.path entries) changed deleted).length := by
    rw [← hupdated, sortBy_perm.length_eq]
  obtain ⟨root, put, hupdate, hchildren, htotal⟩ := updateTree_of_sorted hc hs
    (by rwa [buildTree_sortBy hnodup])
    (by rwa [sortBy_perm.length_eq, ← hlen'])
    (fun pre hpre => by
      have hperm : (group (sortBy FileEntry.path entries) pre).Perm (group entries pre) :=
        sortBy_perm.filter _
      rw [hperm.length_eq]
      exact hfit pre hpre)
  rw [buildTree_sortBy hnodup] at hupdate
  rw [← hupdated, buildTree_sortBy hnodup'] at hchildren
  refine ⟨root, put, hupdate, hchildren, ?_, ?_⟩
  · rw [RootNode.hash, RootNode.hash, hchildren]
  · rw [htotal, ← hlen']
    rfl

/-- A file replaced by one in a new directory. -/
theorem updateTree_eq_buildTree_moved :
    let hash := TreeV2.lengthHash
    let moved : FileEntry := { TreeV2.repeated 'b' 1 with path := "d/b" }
    let built := buildTree unaryCodec hash 0 [TreeV2.repeated 'a' 1] "v" "d"
    let rebuilt := buildTree unaryCodec hash 1
      (updatedEntries [TreeV2.repeated 'a' 1] [moved] ["a"]) "v" "d"
    (TreeV2.storeOf hash built.2).Holds hash built.2 ∧
    ∃ root put, updateTree unaryCodec hash (TreeV2.storeOf hash built.2) 1 built.1 [moved] ["a"] =
        .ok (root, put) ∧
      root.children = rebuilt.1.children ∧ root.hash hash = rebuilt.1.hash hash ∧
      root.totalFiles = rebuilt.1.totalFiles := by
  have hholds : TreeV2.NoCollision TreeV2.lengthHash
      (buildTree unaryCodec TreeV2.lengthHash 0 [TreeV2.repeated 'a' 1] "v" "d").2 := by
    unfold TreeV2.NoCollision
    decide +kernel
  exact ⟨hholds.holds, updateTree_eq_buildTree _ _ _ _ _ _ _ _ _ _ unaryCodec_lawful
    (by decide +kernel) hholds.holds (by decide +kernel) (by decide +kernel)⟩

end Obsetync.TreeV1

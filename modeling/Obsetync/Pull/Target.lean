import Obsetync.Pull.Resume

namespace Obsetync.Pull
open SyncBase DiffPage Keyed List

def hashAt (entries : List FileEntry) (path : String) : Option String :=
  (lookup FileEntry.path entries path).map fun e => hexEncode e.hash.val

/-- What the diff has for a path, from its two entries. -/
def deltaAt : Option FileEntry → Option FileEntry → Option FileDelta
  | none, none => none
  | none, some f => some (.added f.path f.hash f.sizeBytes f.mtimeMs)
  | some e, none => some (.deleted e.path e.hash)
  | some e, some f =>
    if e.hash ≠ f.hash ∨ e.mtimeMs ≠ f.mtimeMs ∨ e.sizeBytes ≠ f.sizeBytes then
      some (.modified f.path f.hash f.sizeBytes f.mtimeMs)
    else none

section
variable {old new : List FileEntry} {deltas : List FileDelta} {delta : FileDelta}
  {isIgnored : String → Bool} {pair : String × Option String}

theorem diffEntries_eq_zip :
    diffEntries old new = zip FileEntry.path FileEntry.path deltaAt old new := by
  induction old, new using zip_induction FileEntry.path FileEntry.path with
  | nil new => simp [diffEntries, deltaAt]
  | cons_nil e old ih =>
    cases old <;> simp_all [diffEntries, deltaAt]
  | lt e old f new hlt ih =>
    rw [diffEntries, if_neg hlt.ne, if_pos hlt, zip_of_lt hlt, ih]
    rfl
  | eq e old f new heq ih =>
    rw [diffEntries, if_pos heq, zip_of_eq heq, ih, deltaAt]
    split_ifs <;> rfl
  | gt e old f new hgt ih =>
    rw [diffEntries, if_neg hgt.ne', if_neg hgt.not_gt, zip_of_gt hgt, ih]
    rfl

theorem lookup_diffEntries (hold : Sorted FileEntry.path old) (hnew : Sorted FileEntry.path new)
    (path : String) : lookup FileDelta.path (diffEntries old new) path =
      deltaAt (lookup FileEntry.path old path) (lookup FileEntry.path new path) := by
  have hkeeps : KeepsKey FileEntry.path FileEntry.path FileDelta.path deltaAt := by
    intro x y c k hx hy h
    cases x <;> cases y <;> grind [deltaAt, FileDelta.path]
  rw [diffEntries_eq_zip]
  exact (zip_spec hkeeps rfl hold hnew).2 path

theorem keptAssignments_deltaAt {x y : Option FileEntry} (h : deltaAt x y = some delta) :
    keptAssignments delta = [(delta.path, y.map fun e => hexEncode e.hash.val)] := by
  cases x <;> cases y <;> grind [deltaAt, keptAssignments, FileDelta.path]

/-- The addition that a rename consumes is its target. -/
theorem exists_rename {hash : FileHash} (hmem : .added path hash size mtimeMs ∈ deltas)
    (hmoved : movedOnce deltas hash) :
    ∃ oldPath, .renamed path oldPath hash size mtimeMs ∈ detectRenames deltas := by
  obtain ⟨hdeletions, hadditions⟩ := (Bool.and_eq_true _ _).mp hmoved
  have hpos := Nat.lt_of_lt_of_eq Nat.one_pos (of_decide_eq_true hdeletions).symm
  obtain ⟨deletion, hdeletion, hof⟩ := countP_pos_iff.1 hpos
  cases deletion with
  | added => cases hof
  | modified => cases hof
  | renamed => cases hof
  | deleted oldPath hash' =>
    obtain rfl := of_decide_eq_true hof
    have hself : additionOf hash' (.added path hash' size mtimeMs) := decide_eq_true rfl
    obtain ⟨addition, hfind⟩ := Option.isSome_iff_exists.1 (find?_isSome.2 ⟨_, hmem, hself⟩)
    obtain rfl := eq_of_countP_eq_one (of_decide_eq_true hadditions) hmem
      (mem_of_find?_eq_some hfind) hself (find?_some hfind)
    refine ⟨oldPath, mem_filterMap.2 ⟨_, hdeletion, ?_⟩⟩
    rw [detectRename, if_pos hmoved, hfind]

theorem assigned_of_mem (hmem : delta ∈ deltas) (hraw : touched delta = [delta.path])
    (hpair : pair ∈ keptAssignments delta) (hkept : isIgnored pair.1 = false) :
    ∃ record ∈ detectRenames deltas, pair ∈ assignments isIgnored record := by
  have hself : detectRename deltas delta = some delta →
      ∃ record ∈ detectRenames deltas, pair ∈ assignments isIgnored record := by
    intro h
    refine ⟨delta, mem_filterMap.2 ⟨delta, hmem, h⟩, ?_⟩
    cases delta <;> simp_all [assignments, scope, keptAssignments, touched]
  cases delta with
  | modified path hash size mtimeMs => exact hself rfl
  | renamed path oldPath hash size mtimeMs => simp [touched] at hraw
  | deleted path hash =>
    cases hrename : detectRename deltas (.deleted path hash) with
    | none =>
      rw [detectRename] at hrename
      grind
    | some record =>
      refine ⟨record, mem_filterMap.2 ⟨_, hmem, hrename⟩, ?_⟩
      obtain rfl := mem_singleton.1 hpair
      rcases detectRename_cases hrename with rfl | ⟨addition, -, _, _, _, _, rfl, hdelta, -⟩
      · simp [assignments, scope, hkept, keptAssignments]
      · cases hdelta
        rw [assignments, scope]
        split_ifs <;> simp_all [keptAssignments]
  | added path hash size mtimeMs =>
    by_cases hmoved : movedOnce deltas hash
    · obtain ⟨oldPath, hrenamed⟩ := exists_rename hmem hmoved
      refine ⟨_, hrenamed, ?_⟩
      obtain rfl := mem_singleton.1 hpair
      rw [assignments, scope, if_neg (by simp [hkept])]
      split_ifs <;> exact mem_cons_self
    · exact hself (by rw [detectRename, if_neg hmoved])

/-- On the paths that are not ignored, the records of the diff lead from the old tree to the new. -/
theorem finish_between (hold : Sorted FileEntry.path old) (hnew : Sorted FileEntry.path new)
    (hsort : sortAndValidateDeltas (detectRenames (diffEntries old new)) = .ok records)
    (hkept : isIgnored path = false) (hview : view path = hashAt old path) :
    finish isIgnored view records path = hashAt new path := by
  have hlookup := lookup_diffEntries hold hnew path
  have hperm := (sortAndValidateDeltas_spec hsort).1
  cases hdelta : deltaAt (lookup FileEntry.path old path) (lookup FileEntry.path new path) with
  | none =>
    have hfresh : path ∉ (records.flatMap (assignments isIgnored)).map Prod.fst := by
      intro hmem
      obtain ⟨pair, hpair, rfl⟩ := mem_map.1 hmem
      obtain ⟨record, hrecord, hpair⟩ := mem_flatMap.1 hpair
      obtain ⟨delta, hmem, hrename⟩ := mem_filterMap.1 (hperm.mem_iff.1 hrecord)
      have htouched := (keys_sublist_touched isIgnored record).subset (mem_map_of_mem hpair)
      have hnone := lookup_eq_none.1 (hlookup.trans hdelta)
      rcases path_of_detectRename (touched_of_mem_diffEntries hmem) hrename htouched with
        heq | ⟨addition, haddition, -, -, -, -, -, heq⟩
      · exact hnone delta hmem heq.symm
      · exact hnone addition haddition heq.symm
    rw [finish, assign_of_not_mem hfresh, hview, hashAt, hashAt]
    revert hdelta
    cases lookup FileEntry.path old path <;> cases lookup FileEntry.path new path <;>
      grind [deltaAt]
  | some delta =>
    obtain ⟨hmem, hpath⟩ := mem_of_lookup (hlookup.trans hdelta)
    have hpair : (path, hashAt new path) ∈ keptAssignments delta := by
      rw [keptAssignments_deltaAt hdelta, hpath]
      exact mem_cons_self
    obtain ⟨record, hrecord, hassigned⟩ :=
      assigned_of_mem hmem (touched_of_mem_diffEntries hmem) hpair hkept
    exact assign_of_mem (keys_nodup isIgnored (Diff.between hold hnew hsort))
      (mem_flatMap.2 ⟨record, hperm.mem_iff.2 hrecord, hassigned⟩)

end

/-- A pull that has worked through the pages of the diff between two trees and put nothing off, in
whatever run, with crashes and resumed pulls, has brought every path that is not ignored and had the
hash of the old tree at its start to the hash of the new tree. -/
theorem pull_reaches_tree (st : Setting) (s : System) (h : Reachable st s) (pull : Paged)
    (hpull : s.pull = some pull) (toRoot : FileHash) (hto : pull.toRoot = some toRoot)
    (hstage : pull.stage = .rooting ∨ pull.stage = .closing) (hzero : pull.deferredCount = 0)
    (old new : List FileEntry) (hold : Sorted FileEntry.path old) (hnew : Sorted FileEntry.path new)
    (hdiff : sortAndValidateDeltas (detectRenames (diffEntries old new)) =
      .ok (st.diff pull.vaultId pull.fromRoot toRoot).records) :
    ∃ entries, ⟨pull.vaultId, pull.fromRoot, toRoot, entries⟩ ∈ s.starts ∧
      ∀ path, st.isIgnored path = false → hashes entries path = hashAt old path →
        hashes s.world.base.visible.entries path = hashAt new path := by
  obtain ⟨entries, hstart, hfinish⟩ :=
    ((h.sysOk.pull pull hpull).known toRoot hto).finish_eq hstage hzero
  refine ⟨entries, hstart, fun path hkept hview => ?_⟩
  rw [hfinish]
  exact finish_between hold hnew hdiff hkept hview

def noteEntry : FileEntry := ⟨"a", noteRoot 7, 1, 1⟩

theorem pull_reaches_tree_note : ∃ pull, notePulled.pull = some pull ∧
    ∃ entries, ⟨"v", noteRoot 1, noteRoot 2, entries⟩ ∈ notePulled.starts ∧
      ∀ path, hashes entries path = hashAt [] path →
        hashes notePulled.world.base.visible.entries path = hashAt [noteEntry] path := by
  have hreach : Reachable noteSetting notePulled := by
    simp only [notePulled, foldl_cons, foldl_nil]
    repeat apply Reachable.step
    exact Reachable.loaded _ _ _ rfl rfl
  have hdiff : sortAndValidateDeltas (detectRenames (diffEntries [] [noteEntry])) =
      .ok noteDiff.records := by
    rw [diffEntries]
    decide +kernel
  obtain ⟨pull, hpull, hto, hstage, hzero, hvault, hfrom⟩ : ∃ pull, notePulled.pull = some pull ∧
      pull.toRoot = some (noteRoot 2) ∧ pull.stage = .rooting ∧ pull.deferredCount = 0 ∧
      pull.vaultId = "v" ∧ pull.fromRoot = noteRoot 1 := ⟨_, rfl, rfl, rfl, rfl, rfl, rfl⟩
  obtain ⟨entries, hstart, hall⟩ := pull_reaches_tree noteSetting notePulled hreach pull hpull
    (noteRoot 2) hto (.inl hstage) hzero [] [noteEntry] .nil (pairwise_singleton _ _) hdiff
  rw [hvault, hfrom] at hstart
  exact ⟨pull, hpull, entries, hstart, fun path => hall path rfl⟩

end Obsetync.Pull

import Obsetync.Merge.Refinement

namespace Obsetync
open Keyed Fallible TreeV1

def MergesTo (codec : NodeCodec) (hashBytes : Bytes → FileHash) (store : ChunkStore)
    (asRoot : Root → VersionedRoot) (merge : Except ChunkError (MergeResult Root × Written))
    (entries : List FileEntry) : Prop :=
  ∃ r w, merge = .ok (r, w) ∧ loadAllEntries codec hashBytes store (asRoot r.newRoot) = .ok entries ∧
    r.fileConflicts = []

/-- No entry of the second state differs from the first one's in its metadata only. -/
def NoTouch (base a : VaultState) : Prop :=
  ∀ q e e', base.at q = some e → a.at q = some e' → e'.hash = e.hash → e' = e

theorem eq_nil_of_lookup {key : α → String} (h : ∀ q, lookup key l q = none) : l = [] := by
  rw [List.eq_nil_iff_forall_not_mem]
  intro c hc
  exact lookup_eq_none.1 (h (key c)) c hc rfl

variable {codec : NodeCodec} {fromLines : String → String → TextDiff}
  {hashBytes : Bytes → FileHash} {store store' : ChunkStore} {base a b : VaultState}

/-- A merge with nothing for the text pass and no conflict. -/
structure Quiet (base a b : VaultState) : Prop where
  conflicts : (base.flat a b).conflicts = []
  textTodo : (base.flat a b).textTodo = []

theorem quiet_left (base a : VaultState) : Quiet base a base := by
  constructor
  · apply eq_nil_of_lookup
    intro q
    rw [(flat_conflicts base a base).2]
    exact conflictAt_of_unchanged.1
  · apply eq_nil_of_lookup
    intro q
    rw [(flat_textTodo base a base).2]
    exact todoAt_of_unchanged.1

theorem quiet_right (base a : VaultState) : Quiet base base a := by
  constructor
  · apply eq_nil_of_lookup
    intro q
    rw [(flat_conflicts base base a).2]
    exact conflictAt_of_unchanged.2.1
  · apply eq_nil_of_lookup
    intro q
    rw [(flat_textTodo base base a).2]
    exact todoAt_of_unchanged.2.1

theorem resolve_of_quiet (hp : state.Provisional) (ht : state.textTodo = []) :
    (resolve fromLines hashBytes content state).conflicts = state.conflicts ∧
      ∀ q, lookup FileEntry.path (resolve fromLines hashBytes content state).merged q =
        lookup FileEntry.path state.merged q := by
  obtain ⟨hc, -, hl⟩ := resolve_spec hp
  rw [ht] at hc hl
  refine ⟨hc.trans (List.append_nil _), fun q => ?_⟩
  rw [hl]
  rfl

theorem mergeTrees_mergesTo (hc : codec.Lawful)
    (hbase : Stored codec hashBytes store base (.v1 rbase))
    (ha : Stored codec hashBytes store a (.v1 ra)) (hb : Stored codec hashBytes store b (.v1 rb))
    (hsbase : base.Storable) (hsa : a.Storable) (hsb : b.Storable) (hquiet : Quiet base a b)
    {result : VaultState} (hsr : result.Storable)
    (hat : ∀ q, (base.choice a b (topLevelPrefix q)).at (base.at q) (a.at q) (b.at q) = result.at q)
    (hput : HoldsPut hashBytes store'
      (mergeTrees codec fromLines hashBytes store nowMs content rbase ra rb)) :
    MergesTo codec hashBytes store' .v1
      (mergeTrees codec fromLines hashBytes store nowMs content rbase ra rb) result.entries := by
  obtain ⟨state, r, w, hmerge, hspec, hconflicts, hbuilt⟩ := mergeTrees_ok
     hc hbase ha hb hsbase hsa hsb
  have htodo : state.textTodo = [] := by
    rw [hspec.textTodo, hquiet.textTodo]
    rfl
  obtain ⟨hc', hl⟩ := resolve_of_quiet hspec.provisional htodo
  have hmerged : (resolve fromLines hashBytes content state).merged = result.entries := by
    apply hspec.within.sorted.ext result.sorted
    intro q
    rw [hl, hspec.merged]
    exact hat q
  refine ⟨r, w, hmerge, ?_, ?_⟩
  · apply (hspec.within.loads_iff hc hsa hsb hbuilt (hput r w hmerge)).2
    rw [hmerged]
    exact ⟨hsr.length_le, rfl⟩
  · rw [hconflicts, hc', hspec.conflicts, hquiet.conflicts]
    rfl

theorem mergeVersionedTrees_mergesTo_iff (hc : codec.Lawful) (hmixed : Mixed rbase ra rb)
    (hbase : Stored codec hashBytes store base rbase) (ha : Stored codec hashBytes store a ra)
    (hb : Stored codec hashBytes store b rb) (hsbase : base.Storable) (hsa : a.Storable)
    (hsb : b.Storable) (hquiet : Quiet base a b) {result : VaultState} (hsr : result.Storable)
    (hput : HoldsPut hashBytes store'
      (mergeVersionedTrees codec fromLines hashBytes store nowMs content rbase ra rb)) :
    MergesTo codec hashBytes store' id
        (mergeVersionedTrees codec fromLines hashBytes store nowMs content rbase ra rb)
        result.entries ↔
      ∀ q, mergedAt (base.at q) (a.at q) (b.at q) = result.at q := by
  obtain ⟨hc', hl⟩ := resolve_of_quiet (flat_provisional base a b) hquiet.textTodo
  have hwithin := @within_flat fromLines hashBytes content base a b
  have hmerged (q : String) : lookup FileEntry.path
      (resolve fromLines hashBytes content (base.flat a b)).merged q =
      mergedAt (base.at q) (a.at q) (b.at q) := (hl q).trans ((flat_merged base a b).2 q)
  constructor
  · rintro ⟨r, w, hmerge, hload, -⟩ q
    obtain ⟨-, hbuilt⟩ := mergeVersionedTrees_built hc hmixed hbase ha hb hsbase hsa hsb hmerge
    obtain ⟨-, heq⟩ := (hwithin.loads_iff hc hsa hsb hbuilt (hput r w hmerge)).1 hload
    rw [← hmerged, ← heq]
    rfl
  · intro h
    have heq : (resolve fromLines hashBytes content (base.flat a b)).merged = result.entries := by
      apply hwithin.sorted.ext result.sorted
      intro q
      rw [hmerged]
      exact h q
    obtain ⟨r, w, hmerge⟩ := mergeVersionedTrees_ok hc hmixed hbase ha hb hsbase hsa
      hsb (heq.symm ▸ hsr.length_le)
    obtain ⟨hconflicts, hbuilt⟩ :=
      mergeVersionedTrees_built hc hmixed hbase ha hb hsbase hsa hsb hmerge
    refine ⟨r, w, hmerge, ?_, ?_⟩
    · apply (hwithin.loads_iff hc hsa hsb hbuilt (hput r w hmerge)).2
      rw [heq]
      exact ⟨hsr.length_le, rfl⟩
    · rw [hconflicts, hc', hquiet.conflicts]

theorem choice_left (base a : VaultState) (q : String) :
    (base.choice a base (topLevelPrefix q)).at (base.at q) (a.at q) (base.at q) = a.at q := by
  rw [VaultState.choice, chooseSide_eq_a.2 (.inl rfl)]
  rfl

theorem choice_right (base a : VaultState) (q : String) :
    (base.choice base a (topLevelPrefix q)).at (base.at q) (base.at q) (a.at q) = a.at q := by
  by_cases h : group a.entries (topLevelPrefix q) = group base.entries (topLevelPrefix q)
  · rw [VaultState.choice, chooseSide_eq_a.2 (.inl h)]
    exact (at_congr h).symm
  · rw [VaultState.choice, chooseSide_eq_b.2 ⟨h, .inl rfl⟩]
    rfl

theorem Mixed.swap (h : Mixed rbase ra rb) : Mixed rbase rb ra := fun hall => h ⟨hall.1, hall.2.2, hall.2.1⟩

/-- Merging with an unchanged side gives the other side: always by the prefix merge, and by the flat
merge exactly when the other side changed no entry without changing its content. -/
theorem merge_neutral_iff (codec : NodeCodec) (fromLines : String → String → TextDiff)
    (hashBytes : Bytes → FileHash) (store store' : ChunkStore) (nowMs : UInt64) (content : Content)
    (base a : VaultState) (rbase ra : RootNode) (rbase' ra' : VersionedRoot)
    (hc : codec.Lawful) (hsbase : base.Storable) (hsa : a.Storable)
    (hbase : Stored codec hashBytes store base (.v1 rbase))
    (ha : Stored codec hashBytes store a (.v1 ra))
    (hbase' : Stored codec hashBytes store base rbase') (ha' : Stored codec hashBytes store a ra')
    (hmixed : Mixed rbase' ra' rbase') (hput₁ : HoldsPut hashBytes store'
      (mergeTrees codec fromLines hashBytes store nowMs content rbase ra rbase))
    (hput₂ : HoldsPut hashBytes store'
      (mergeTrees codec fromLines hashBytes store nowMs content rbase rbase ra))
    (hput₃ : HoldsPut hashBytes store'
      (mergeVersionedTrees codec fromLines hashBytes store nowMs content rbase' ra' rbase'))
    (hput₄ : HoldsPut hashBytes store'
      (mergeVersionedTrees codec fromLines hashBytes store nowMs content rbase' rbase' ra')) :
    (MergesTo codec hashBytes store' .v1
        (mergeTrees codec fromLines hashBytes store nowMs content rbase ra rbase) a.entries ∧
      MergesTo codec hashBytes store' .v1
        (mergeTrees codec fromLines hashBytes store nowMs content rbase rbase ra) a.entries) ∧
    (MergesTo codec hashBytes store' id
        (mergeVersionedTrees codec fromLines hashBytes store nowMs content rbase' ra' rbase')
        a.entries ↔ NoTouch base a) ∧
    (MergesTo codec hashBytes store' id
        (mergeVersionedTrees codec fromLines hashBytes store nowMs content rbase' rbase' ra')
        a.entries ↔ NoTouch base a) := by
  refine ⟨⟨?_, ?_⟩, ?_, ?_⟩
  · exact mergeTrees_mergesTo hc hbase ha hbase hsbase hsa hsbase (quiet_left base a) hsa
      (choice_left base a) hput₁
  · exact mergeTrees_mergesTo hc hbase hbase ha hsbase hsbase hsa (quiet_right base a) hsa
      (choice_right base a) hput₂
  · rw [mergeVersionedTrees_mergesTo_iff hc hmixed hbase' ha' hbase' hsbase hsa hsbase
      (quiet_left base a) hsa hput₃]
    exact forall_congr' fun q => mergedAt_unchanged_b
  · rw [mergeVersionedTrees_mergesTo_iff hc hmixed.swap hbase' hbase' ha' hsbase hsbase hsa
      (quiet_right base a) hsa hput₄]
    exact forall_congr' fun q => mergedAt_unchanged_a

section Samples

open TreeV2 (lengthHash leafOf)

/-- The flat merge with an unchanged side drops the other side's modification time. -/
theorem mergeVersionedTrees_drops_touched :
    (mergeVersionedTrees unaryCodec noDiff lengthHash (sampleStore touched) 0 (fun _ => none)
      (sampleV2 untouched) (.v1 (sampleV1 (oneFile touched)).1)
      (sampleV2 untouched)).map (fun p => loadAllEntries unaryCodec lengthHash
        (sampleStore touched) p.1.newRoot) = .ok (.ok [untouched]) ∧
    Stored unaryCodec lengthHash (sampleStore touched) (oneFile untouched) (sampleV2 untouched) ∧
    Stored unaryCodec lengthHash (sampleStore touched) (oneFile touched)
      (.v1 (sampleV1 (oneFile touched)).1) ∧
    ¬ MergesTo unaryCodec lengthHash (sampleStore touched) id
      (mergeVersionedTrees unaryCodec noDiff lengthHash (sampleStore touched) 0 (fun _ => none)
        (sampleV2 untouched) (.v1 (sampleV1 (oneFile touched)).1) (sampleV2 untouched))
      (oneFile touched).entries := by
  obtain ⟨-, htouched, hv2⟩ := sampleStore_holds touched_noCollision
  have hflat := touched_flat
  refine ⟨hflat, hv2, htouched, ?_⟩
  rintro ⟨r, w, hr, hload, -⟩
  rw [hr] at hflat
  have hone : loadAllEntries unaryCodec lengthHash (sampleStore touched) r.newRoot =
      .ok [untouched] := Except.ok.inj hflat
  have hne : [untouched] ≠ [touched] := by decide +kernel
  exact hne (Except.ok.inj (hone.symm.trans hload))

theorem merge_neutral_on_touched : (MergesTo unaryCodec lengthHash (sampleStore touched) .v1
        (mergeTrees unaryCodec noDiff lengthHash (sampleStore touched) 0 (fun _ => none)
          (sampleV1 (oneFile untouched)).1 (sampleV1 (oneFile touched)).1
          (sampleV1 (oneFile untouched)).1) [touched] ∧
      MergesTo unaryCodec lengthHash (sampleStore touched) .v1
        (mergeTrees unaryCodec noDiff lengthHash (sampleStore touched) 0 (fun _ => none)
          (sampleV1 (oneFile untouched)).1 (sampleV1 (oneFile untouched)).1
          (sampleV1 (oneFile touched)).1) [touched]) ∧
    (MergesTo unaryCodec lengthHash (sampleStore touched) id
        (mergeVersionedTrees unaryCodec noDiff lengthHash (sampleStore touched) 0 (fun _ => none)
          (sampleV2 untouched) (.v1 (sampleV1 (oneFile touched)).1) (sampleV2 untouched))
        [touched] ↔ NoTouch (oneFile untouched) (oneFile touched)) ∧
    (MergesTo unaryCodec lengthHash (sampleStore touched) id
        (mergeVersionedTrees unaryCodec noDiff lengthHash (sampleStore touched) 0 (fun _ => none)
          (sampleV2 untouched) (sampleV2 untouched) (.v1 (sampleV1 (oneFile touched)).1))
        [touched] ↔ NoTouch (oneFile untouched) (oneFile touched)) := by
  have hpath : TreeV2.validatePath "a" = .ok () := by decide +kernel
  obtain ⟨hv1, htouched, hv2⟩ := sampleStore_holds touched_noCollision
  obtain ⟨hold, hnew, hleaf⟩ := sampleStore_chunks touched_noCollision
  exact merge_neutral_iff unaryCodec noDiff lengthHash _ _ 0 _ _ _ _ _ _ _ unaryCodec_lawful
    (sampleFile_storable hpath) (sampleFile_storable hpath) hv1 htouched hv2 htouched
    (by unfold Mixed; decide) (holdsPut_of_map (by decide +kernel) hnew)
    (holdsPut_of_map (by decide +kernel) hnew) (holdsPut_of_map (by decide +kernel) hold)
    (holdsPut_of_map (by decide +kernel) hleaf)

end Samples

end Obsetync

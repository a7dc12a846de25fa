import Obsetync.Merge.Choices

namespace Obsetync
open Keyed Fallible TreeV1
open List hiding lookup

/-- Entries in order, each at a path of one of the two sides. -/
structure Within (a b : VaultState) (merged : List FileEntry) : Prop where
  sorted : Sorted FileEntry.path merged
  paths : ∀ e ∈ merged, (a.at e.path).isSome ∨ (b.at e.path).isSome

namespace Within

variable {a b : VaultState}

theorem mem_paths (h : (VaultState.at state p).isSome) : p ∈ state.entries.map FileEntry.path := by
  obtain ⟨e, he⟩ := Option.isSome_iff_exists.1 h
  obtain ⟨hmem, rfl⟩ := mem_of_lookup he
  exact mem_map_of_mem hmem

theorem side (h : Within a b merged) (hq : lookup FileEntry.path merged q ≠ none) :
    a.at q ≠ none ∨ b.at q ≠ none := by
  obtain ⟨e, he⟩ := Option.ne_none_iff_exists'.1 hq
  obtain ⟨hmem, rfl⟩ := mem_of_lookup he
  simpa [Option.isSome_iff_ne_none] using h.paths e hmem

theorem length_le (h : Within a b merged) :
    merged.length ≤ a.entries.length + b.entries.length := by
  have hnd : (merged.map FileEntry.path).Nodup := pairwise_map.2 (h.sorted.imp fun hlt => hlt.ne)
  have hsub : merged.map FileEntry.path ⊆
      a.entries.map FileEntry.path ++ b.entries.map FileEntry.path := by
    intro p hp
    obtain ⟨e, he, rfl⟩ := mem_map.1 hp
    rw [mem_append]
    exact (h.paths e he).imp mem_paths mem_paths
  simpa using (subperm_of_subset hnd hsub).length_le

theorem validatePath (h : Within a b merged) (ha : a.Storable) (hb : b.Storable) :
    ∀ e ∈ merged, TreeV2.validatePath e.path = .ok () := by
  intro e he
  rcases h.paths e he with hp | hp
  · obtain ⟨e', he', hpath⟩ := mem_map.1 (mem_paths hp)
    exact hpath ▸ ha.paths e' he'
  · obtain ⟨e', he', hpath⟩ := mem_map.1 (mem_paths hp)
    exact hpath ▸ hb.paths e' he'

theorem length_lt (h : Within a b merged) (ha : a.Storable) (hb : b.Storable) :
    merged.length < 2 ^ 64 := by
  have h1 := h.length_le
  have h2 := ha.length_le
  have h3 := hb.length_le
  rw [TreeV2.maxLoadedEntries] at h2 h3
  omega

end Within

variable {codec : NodeCodec} {fromLines : String → String → TextDiff}
  {hashBytes : Bytes → FileHash} {store store' : ChunkStore} {base a b : VaultState}

theorem Within.loads_iff (hc : codec.Lawful) (h : Within a b merged) (ha : a.Storable)
    (hb : b.Storable) (hbuilt : BuiltFrom codec hashBytes merged root put)
    (hstore : store'.Holds hashBytes put) :
    loadAllEntries codec hashBytes store' root = .ok loaded ↔
      merged.length ≤ TreeV2.maxLoadedEntries ∧ loaded = merged :=
  @BuiltFrom.loads_iff _ _ _ _ _ _ hc ⟨merged, h.sorted⟩ hbuilt hstore (h.validatePath ha hb)
    (h.length_lt ha hb)

theorem todoAt_isSome (h : todoAt p x y z = some todo) : y = some todo.a ∧ z = some todo.b := by
  obtain ⟨_, _, _, -, rfl, rfl, -, -, -, rfl⟩ := todoAt_eq_some.1 h
  exact ⟨rfl, rfl⟩

theorem flat_todo_sides (h : todo ∈ (base.flat a b).textTodo) :
    a.at todo.path = some todo.a ∧ b.at todo.path = some todo.b := by
  have hlook := (flat_textTodo base a b).1.lookup_of_mem h
  rw [(flat_textTodo base a b).2] at hlook
  exact todoAt_isSome hlook

theorem mergedAt_side (h : mergedAt x y z = some e) : y.isSome ∨ z.isSome := by
  rcases mergedAt_mem h with h | h | ⟨_, _, -, h, -⟩
  · exact .inl (h ▸ rfl)
  · exact .inr (h ▸ rfl)
  · exact .inl (h ▸ rfl)

theorem Choice.at_side {choice : Choice} (h : choice.at x y z = some e) : y.isSome ∨ z.isSome := by
  cases choice with
  | a => exact .inl (Option.isSome_of_eq_some h)
  | b => exact .inr (Option.isSome_of_eq_some h)
  | files => exact mergedAt_side h

theorem within_resolve (hp : state.Provisional)
    (htodo : ∀ todo ∈ state.textTodo, todo ∈ (base.flat a b).textTodo)
    (hmerged : ∀ q e, lookup FileEntry.path state.merged q = some e →
      (a.at q).isSome ∨ (b.at q).isSome) :
    Within a b (resolve fromLines hashBytes content state).merged := by
  obtain ⟨-, hsort, hlook⟩ := (@resolve_spec fromLines) hp
  refine ⟨hsort, fun e he => ?_⟩
  have hat := hsort.lookup_of_mem he
  rw [hlook, resolvedAt] at hat
  cases hout : (lookup (·.1.path) (outcomes fromLines hashBytes content state.textTodo) e.path).bind
      Prod.snd with
  | none =>
    rw [hout, Option.none_or] at hat
    exact hmerged _ _ hat
  | some e' =>
    obtain ⟨todo, hmem, hpath, -⟩ := mem_outcomes_of_lookup hout
    rw [← hpath, (flat_todo_sides (htodo todo hmem)).1]
    exact .inl rfl

theorem within_flat (base a b : VaultState) :
    Within a b (resolve fromLines hashBytes content (base.flat a b)).merged := by
  apply within_resolve (flat_provisional base a b) (fun _ h => h)
  intro q e h
  rw [(flat_merged base a b).2] at h
  exact mergedAt_side h

theorem PrefixMerged.within (h : PrefixMerged base a b state) :
    Within a b (resolve fromLines hashBytes content state).merged := by
  apply within_resolve h.provisional
  · intro todo htodo
    rwa [h.textTodo, sortBy_perm.mem_iff] at htodo
  · intro q e he
    rw [h.merged] at he
    exact Choice.at_side he

theorem mergeTrees_ok (hc : codec.Lawful) (hbase : Stored codec hashBytes store base (.v1 rbase))
    (ha : Stored codec hashBytes store a (.v1 ra)) (hb : Stored codec hashBytes store b (.v1 rb))
    (hsbase : base.Storable) (hsa : a.Storable) (hsb : b.Storable) : ∃ state result written,
      mergeTrees codec fromLines hashBytes store nowMs content rbase ra rb = .ok (result, written) ∧
      PrefixMerged base a b state ∧
      result.fileConflicts = (resolve fromLines hashBytes content state).conflicts ∧
      BuiltFrom codec hashBytes (resolve fromLines hashBytes content state).merged
        (.v1 result.newRoot) written.chunks := by
  obtain ⟨state, hstate, hspec⟩ := mergePrefixes_spec hc hbase ha hb hsbase hsa hsb
  refine ⟨state, _, _, bind_eq_ok.2 ⟨state, hstate, rfl⟩, hspec, rfl, ?_⟩
  exact ⟨nowMs, VersionedRoot.treeV1, ra.vaultId, "server", _, nowMs, some (ra.hash hashBytes),
    "server", rfl, rfl⟩

theorem Stored.rootIds (h : Stored codec hashBytes store state root) :
    RootIds root.version root.vaultId "server" := by
  obtain ⟨put, ⟨nowMs, version, vaultId, deviceId, built, createdMs, parentHash, deviceId', hb, rfl⟩,
    -⟩ := h
  have hserver : TreeV2.validateRootId "device" "server" true = .ok () := by decide +kernel
  have hsame : (built.setHistoryMetadata createdMs parentHash deviceId').version = built.version ∧
      (built.setHistoryMetadata createdMs parentHash deviceId').vaultId = built.vaultId := by
    cases built <;> exact ⟨rfl, rfl⟩
  obtain ⟨hids, hversion, hvault, -⟩ := buildRoot_cases hb
  rw [hsame.1, hsame.2, hversion, hvault]
  rcases hids with h | ⟨h, hid, -⟩
  · exact .inl h
  · exact .inr ⟨h, hid, hserver⟩

def Mixed (base a b : VersionedRoot) : Prop :=
  ¬ (base.version = VersionedRoot.treeV1 ∧ a.version = VersionedRoot.treeV1 ∧
    b.version = VersionedRoot.treeV1)

theorem mergeVersionedTrees_of_mixed (h : Mixed rbase ra rb) :
    mergeVersionedTrees codec fromLines hashBytes store nowMs content rbase ra rb =
      mergeFlat codec fromLines hashBytes store nowMs content rbase ra rb := by
  cases rbase <;> cases ra <;> cases rb <;> first | rfl | exact absurd ⟨rfl, rfl, rfl⟩ h

section

variable (hc : codec.Lawful) (hmixed : Mixed rbase ra rb)
  (hbase : Stored codec hashBytes store base rbase) (ha : Stored codec hashBytes store a ra)
  (hb : Stored codec hashBytes store b rb) (hsbase : base.Storable) (hsa : a.Storable)
  (hsb : b.Storable)
include hc hmixed hbase ha hb hsbase hsa hsb

theorem mergeVersionedTrees_eq :
    mergeVersionedTrees codec fromLines hashBytes store nowMs content rbase ra rb = (do
      let r := resolve fromLines hashBytes content (base.flat a b)
      let (root, put) ← buildRoot codec hashBytes nowMs r.merged ra.version ra.vaultId "server"
      return (⟨root.setHistoryMetadata 0 (some (ra.hash hashBytes)) "server", r.conflicts,
        (base.flat a b).autoResolved, r.textMerged⟩, ⟨put, r.content⟩)) := by
  rw [mergeVersionedTrees_of_mixed hmixed, mergeFlat, hbase.loads hc hsbase, ha.loads hc hsa,
    hb.loads hc hsb]
  rfl

theorem mergeVersionedTrees_built
    (h : mergeVersionedTrees codec fromLines hashBytes store nowMs content rbase ra rb =
      .ok (result, written)) :
    result.fileConflicts = (resolve fromLines hashBytes content (base.flat a b)).conflicts ∧
      BuiltFrom codec hashBytes (resolve fromLines hashBytes content (base.flat a b)).merged
        result.newRoot written.chunks := by
  rw [mergeVersionedTrees_eq hc hmixed hbase ha hb hsbase hsa hsb] at h
  obtain ⟨⟨root, put⟩, hbuild, h⟩ := bind_eq_ok.1 h
  cases h
  exact ⟨rfl, _, _, _, _, _, _, _, _, hbuild, rfl⟩

theorem mergeVersionedTrees_ok
    (hfit : (resolve fromLines hashBytes content (base.flat a b)).merged.length ≤
      TreeV2.maxLoadedEntries) :
    ∃ result written, mergeVersionedTrees codec fromLines hashBytes store nowMs content rbase ra rb =
      .ok (result, written) := by
  have hwithin := @within_flat fromLines hashBytes content base a b
  obtain ⟨root, put, hbuild⟩ := @buildRoot_ok _ _ _ _ _ _ ⟨_, hwithin.sorted⟩ ⟨hfit, hwithin.validatePath hsa hsb⟩ ha.rootIds
  rw [mergeVersionedTrees_eq hc hmixed hbase ha hb hsbase hsa hsb]
  exact ⟨_, _, bind_eq_ok.2 ⟨(root, put), hbuild, rfl⟩⟩

end

end Obsetync

import Obsetync.Merge.Prefixes

namespace Obsetync
open Keyed Fallible TreeV1

theorem chooseSide_eq_a : chooseSide base a b = .a ↔
    b = base ∨ a ≠ base ∧ base ≠ [] ∧ a ≠ [] ∧ b = [] := by
  rw [chooseSide]
  split_ifs <;> grind

theorem chooseSide_eq_b : chooseSide base a b = .b ↔
    b ≠ base ∧ (a = base ∨ base ≠ [] ∧ a = []) := by
  rw [chooseSide]
  split_ifs <;> grind

theorem conflictAt_of_unchanged :
    conflictAt path base entry base = none ∧ conflictAt path base base entry = none ∧
      conflictAt path base entry none = none ∧ conflictAt path base none entry = none := by
  cases base <;> cases entry <;>
    simp only [conflictAt, mergePath, MergeState.keep, MergeState.pick, MergeState.empty] <;> grind

theorem todoAt_of_unchanged :
    todoAt path base entry base = none ∧ todoAt path base base entry = none ∧
      todoAt path base entry none = none ∧ todoAt path base none entry = none := by
  cases base <;> cases entry <;>
    simp only [todoAt, mergePath, MergeState.keep, MergeState.pick, MergeState.empty] <;> grind

theorem mergedAt_of_todoAt (h : todoAt path base a b = some todo) :
    mergedAt base a b = some todo.a := by
  obtain ⟨base', a', b', rfl, rfl, rfl, ha, hb, hab, rfl⟩ := todoAt_eq_some.1 h
  simp [mergedAt, mergePath, ha, hb, hab]

def Choice.at : Choice → Option FileEntry → Option FileEntry → Option FileEntry → Option FileEntry
  | a, _, x, _ => x
  | b, _, _, y => y
  | files, base, x, y => mergedAt base x y

theorem eq_filter_prefix {flat : List α} (hflat : Sorted key flat) (hpart : Sorted key part)
    (h : ∀ q, lookup key part q = if topLevelPrefix q = pre then lookup key flat q else none) :
    part = flat.filter fun c => topLevelPrefix (key c) = pre := by
  apply hpart.ext (hflat.filter _)
  intro q
  rw [h, lookup_filter_key fun p => decide (topLevelPrefix p = pre)]
  simp

namespace VaultState

variable (base a b : VaultState)

def choice (pre : String) : Choice :=
  chooseSide (group base.entries pre) (group a.entries pre) (group b.entries pre)

def flat : MergeState := mergeEntryLists base.entries a.entries b.entries

def part (pre : String) : MergeState :=
  mergeGroup 0 (group base.entries pre) (group a.entries pre) (group b.entries pre)

end VaultState

variable {base a b : VaultState}

theorem lookup_group_at (state : VaultState) (q : String) :
    lookup FileEntry.path (group state.entries (topLevelPrefix q)) q = state.at q := by
  rw [lookup_group, if_pos rfl]
  rfl

theorem at_of_choice_a (h : base.choice a b (topLevelPrefix q) = .a) :
    b.at q = base.at q ∨ b.at q = none := by
  rcases chooseSide_eq_a.1 h with h | ⟨-, -, -, h⟩
  · left
    rw [← lookup_group_at, h, lookup_group_at]
  · right
    rw [← lookup_group_at, h]
    rfl

theorem at_of_choice_b (h : base.choice a b (topLevelPrefix q) = .b) :
    a.at q = base.at q ∨ a.at q = none := by
  rcases (chooseSide_eq_b.1 h).2 with h | ⟨-, h⟩
  · left
    rw [← lookup_group_at, h, lookup_group_at]
  · right
    rw [← lookup_group_at, h]
    rfl

theorem quiet_of_choice (h : base.choice a b (topLevelPrefix q) ≠ .files) :
    conflictAt q (base.at q) (a.at q) (b.at q) = none ∧
      todoAt q (base.at q) (a.at q) (b.at q) = none := by
  cases hchoice : base.choice a b (topLevelPrefix q) with
  | a =>
    rcases at_of_choice_a hchoice with hb | hb
    · rw [hb]
      exact ⟨conflictAt_of_unchanged.1, todoAt_of_unchanged.1⟩
    · rw [hb]
      exact ⟨conflictAt_of_unchanged.2.2.1, todoAt_of_unchanged.2.2.1⟩
  | b =>
    rcases at_of_choice_b hchoice with ha | ha
    · rw [ha]
      exact ⟨conflictAt_of_unchanged.2.1, todoAt_of_unchanged.2.1⟩
    · rw [ha]
      exact ⟨conflictAt_of_unchanged.2.2.2, todoAt_of_unchanged.2.2.2⟩
  | files => exact absurd hchoice h

theorem flat_merged (base a b : VaultState) : Sorted FileEntry.path (base.flat a b).merged ∧
    ∀ q, lookup FileEntry.path (base.flat a b).merged q = mergedAt (base.at q) (a.at q) (b.at q) :=
  merged_spec base.sorted a.sorted b.sorted

theorem flat_conflicts (base a b : VaultState) : Sorted FileConflict.path (base.flat a b).conflicts ∧
    ∀ q, lookup FileConflict.path (base.flat a b).conflicts q =
      conflictAt q (base.at q) (a.at q) (b.at q) :=
  conflicts_spec base.sorted a.sorted b.sorted

theorem flat_textTodo (base a b : VaultState) : Sorted TextMergeTodo.path (base.flat a b).textTodo ∧
    ∀ q, lookup TextMergeTodo.path (base.flat a b).textTodo q =
      todoAt q (base.at q) (a.at q) (b.at q) :=
  textTodo_spec base.sorted a.sorted b.sorted

theorem part_merged (base a b : VaultState) (pre : String) :
    Sorted FileEntry.path (base.part a b pre).merged ∧
      ∀ q, lookup FileEntry.path (base.part a b pre).merged q =
        if topLevelPrefix q = pre then
          (base.choice a b pre).at (base.at q) (a.at q) (b.at q) else none := by
  have hs := group_sorted base.sorted pre
  have hsa := group_sorted a.sorted pre
  have hsb := group_sorted b.sorted pre
  rw [VaultState.part, mergeGroup, ← VaultState.choice]
  cases base.choice a b pre with
  | a => exact ⟨hsa, lookup_group a.entries pre⟩
  | b => exact ⟨hsb, lookup_group b.entries pre⟩
  | files =>
    obtain ⟨hsort, hlook⟩ := merged_spec hs hsa hsb
    refine ⟨hsort, fun q => ?_⟩
    rw [hlook, lookup_group, lookup_group, lookup_group]
    split_ifs <;> rfl

theorem part_eq_filter {α : Type} {key : α → String} {proj : MergeState → List α}
    {f : String → Option FileEntry → Option FileEntry → Option FileEntry → Option α}
    (hspec : ∀ base a b, Sorted FileEntry.path base → Sorted FileEntry.path a →
      Sorted FileEntry.path b → Sorted key (proj (mergeEntryLists base a b)) ∧
        ∀ q, lookup key (proj (mergeEntryLists base a b)) q = f q (lookup FileEntry.path base q)
          (lookup FileEntry.path a q) (lookup FileEntry.path b q))
    (hside : ∀ entries, proj ⟨entries, [], 0, []⟩ = [])
    (hcount : ∀ s : MergeState, proj { s with autoResolved := 0 } = proj s)
    (hnone : ∀ q, f q none none none = none)
    (hquiet : ∀ q, base.choice a b (topLevelPrefix q) ≠ .files →
      f q (base.at q) (a.at q) (b.at q) = none) (pre : String) :
    proj (base.part a b pre) =
      (proj (base.flat a b)).filter fun c => topLevelPrefix (key c) = pre := by
  have hflat : Sorted key (proj (base.flat a b)) ∧
      ∀ q, lookup key (proj (base.flat a b)) q = f q (base.at q) (a.at q) (b.at q) :=
    hspec _ _ _ base.sorted a.sorted b.sorted
  have hnil : base.choice a b pre ≠ .files → [] =
      (proj (base.flat a b)).filter fun c => topLevelPrefix (key c) = pre := by
    intro hne
    apply eq_filter_prefix hflat.1 List.Pairwise.nil
    intro q
    split_ifs with hq
    · rw [hflat.2]
      exact (hquiet q (hq.symm ▸ hne)).symm
    · rfl
  rw [VaultState.part, mergeGroup, ← VaultState.choice]
  cases hchoice : base.choice a b pre with
  | a => exact (hside _).trans (hnil (by rw [hchoice]; rintro ⟨⟩))
  | b => exact (hside _).trans (hnil (by rw [hchoice]; rintro ⟨⟩))
  | files =>
    have hpart := hspec _ _ _ (group_sorted base.sorted pre) (group_sorted a.sorted pre)
      (group_sorted b.sorted pre)
    apply (hcount _).trans
    apply eq_filter_prefix hflat.1 hpart.1
    intro q
    rw [hpart.2, hflat.2, lookup_group, lookup_group, lookup_group]
    split_ifs
    · rfl
    · exact hnone q

theorem part_conflicts (base a b : VaultState) (pre : String) : (base.part a b pre).conflicts =
    (base.flat a b).conflicts.filter fun c => topLevelPrefix c.path = pre :=
  part_eq_filter (fun _ _ _ => conflicts_spec) (fun _ => rfl) (fun _ => rfl) (fun _ => rfl)
    (fun _ h => (quiet_of_choice h).1) pre

theorem part_textTodo (base a b : VaultState) (pre : String) : (base.part a b pre).textTodo =
    (base.flat a b).textTodo.filter fun todo => topLevelPrefix todo.path = pre :=
  part_eq_filter (fun _ _ _ => textTodo_spec) (fun _ => rfl) (fun _ => rfl) (fun _ => rfl)
    (fun _ h => (quiet_of_choice h).2) pre

theorem flat_provisional (base a b : VaultState) : (base.flat a b).Provisional := by
  obtain ⟨hsort, hlook⟩ := flat_merged base a b
  obtain ⟨htsort, htlook⟩ := flat_textTodo base a b
  constructor
  · exact List.pairwise_map.2 (hsort.imp fun hlt => hlt.ne)
  · exact List.pairwise_map.2 (htsort.imp fun hlt => hlt.ne)
  · intro todo htodo
    rw [hlook]
    apply mergedAt_of_todoAt
    rw [← htlook]
    exact htsort.lookup_of_mem htodo

/-- The prefix merge, path by path: every directory follows its decision, and the conflicts and the
text merges are those of the flat merge, directory by directory. -/
structure PrefixMerged (base a b : VaultState) (state : MergeState) : Prop where
  provisional : state.Provisional
  merged : ∀ q, lookup FileEntry.path state.merged q =
    (base.choice a b (topLevelPrefix q)).at (base.at q) (a.at q) (b.at q)
  conflicts : state.conflicts = sortBy (topLevelPrefix ·.path) (base.flat a b).conflicts
  textTodo : state.textTodo = sortBy (topLevelPrefix ·.path) (base.flat a b).textTodo

theorem at_eq_none (h : group state.entries (topLevelPrefix q) = []) :
    VaultState.at state q = none := by
  rw [← lookup_group_at, h]
  rfl

section

variable {codec : NodeCodec} {hashBytes : Bytes → FileHash} {store : ChunkStore}
  {rbase ra rb : RootNode} {p : String}

theorem at_eq_none_of_not_mem {ps : List String} (hps : ∀ pre, pre ∈ ps ↔
      group base.entries pre ≠ [] ∨ group a.entries pre ≠ [] ∨ group b.entries pre ≠ [])
    (h : topLevelPrefix q ∉ ps) : base.at q = none ∧ a.at q = none ∧ b.at q = none := by
  simp only [hps, ne_eq, not_or, not_not] at h
  exact ⟨at_eq_none h.1, at_eq_none h.2.1, at_eq_none h.2.2⟩

theorem mergePrefixes_spec (hc : codec.Lawful)
    (hbase : Stored codec hashBytes store base (.v1 rbase))
    (ha : Stored codec hashBytes store a (.v1 ra)) (hb : Stored codec hashBytes store b (.v1 rb))
    (hsbase : base.Storable) (hsa : a.Storable) (hsb : b.Storable) :
    ∃ state, mergePrefixes codec store rbase ra rb = .ok state ∧ PrefixMerged base a b state := by
  obtain ⟨hsort, hps⟩ := allPrefixes_spec hbase ha hb
  obtain ⟨state, hstate, hm, hcf, ht⟩ := mergePrefixes_eq hc hbase ha hb hsbase hsa hsb
  have hunder : ∀ pre, ∀ e ∈ (base.part a b pre).merged, topLevelPrefix e.path = pre := by
    intro pre e he
    have hlook := (part_merged base a b pre).1.lookup_of_mem he
    rw [(part_merged base a b pre).2] at hlook
    by_contra hne
    rw [if_neg hne] at hlook
    cases hlook
  have hmerged : ∀ q, lookup FileEntry.path state.merged q =
      (base.choice a b (topLevelPrefix q)).at (base.at q) (a.at q) (b.at q) := by
    intro q
    rw [hm]
    apply (lookup_flatMap (g := fun pre => (base.part a b pre).merged) (c := topLevelPrefix)
      hunder q).trans
    split_ifs with hmem
    · rw [(part_merged base a b _).2, if_pos rfl]
    · obtain ⟨h1, h2, h3⟩ := at_eq_none_of_not_mem hps hmem
      rw [h1, h2, h3]
      cases base.choice a b (topLevelPrefix q) <;> rfl
  have hconflicts : state.conflicts = sortBy (topLevelPrefix ·.path) (base.flat a b).conflicts := by
    rw [hcf]
    apply (List.flatMap_congr fun pre _ => part_conflicts base a b pre).trans
    apply flatMap_filter_eq_sortBy hsort
    intro c hc
    by_contra hmem
    obtain ⟨h1, h2, h3⟩ := at_eq_none_of_not_mem hps hmem
    have hlook := (flat_conflicts base a b).1.lookup_of_mem hc
    rw [(flat_conflicts base a b).2, h1, h2, h3] at hlook
    cases hlook
  have htextTodo : state.textTodo = sortBy (topLevelPrefix ·.path) (base.flat a b).textTodo := by
    rw [ht]
    apply (List.flatMap_congr fun pre _ => part_textTodo base a b pre).trans
    apply flatMap_filter_eq_sortBy hsort
    intro todo htodo
    by_contra hmem
    obtain ⟨h1, h2, h3⟩ := at_eq_none_of_not_mem hps hmem
    have hlook := (flat_textTodo base a b).1.lookup_of_mem htodo
    rw [(flat_textTodo base a b).2, h1, h2, h3] at hlook
    cases hlook
  refine ⟨state, hstate, ⟨?_, ?_, ?_⟩, hmerged, hconflicts, htextTodo⟩
  · rw [hm]
    exact nodup_flatMap_keys hsort (fun pre => (part_merged base a b pre).1) hunder
  · rw [htextTodo]
    exact (sortBy_perm.map _).nodup_iff.2 (flat_provisional base a b).todos
  · intro todo htodo
    rw [htextTodo, sortBy_perm.mem_iff] at htodo
    have hlook := (flat_textTodo base a b).1.lookup_of_mem htodo
    rw [(flat_textTodo base a b).2] at hlook
    have hfiles : base.choice a b (topLevelPrefix todo.path) = .files := by
      by_contra hne
      rw [(quiet_of_choice hne).2] at hlook
      cases hlook
    rw [hmerged, hfiles]
    exact mergedAt_of_todoAt hlook

end

end Obsetync

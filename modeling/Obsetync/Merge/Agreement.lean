import Obsetync.Merge.Results

namespace Obsetync
open Keyed Fallible TreeV1
open List hiding lookup

theorem mergedAt_unchanged_b : mergedAt x y x = y ↔
    ∀ e e', x = some e → y = some e' → e'.hash = e.hash → e' = e := by
  cases x <;> cases y <;>
    simp only [mergedAt, mergePath, MergeState.keep, MergeState.pick, MergeState.empty] <;> grind

theorem mergedAt_unchanged_a : mergedAt x x y = y ↔
    ∀ e e', x = some e → y = some e' → e'.hash = e.hash → e' = e := by
  cases x <;> cases y <;>
    simp only [mergedAt, mergePath, MergeState.keep, MergeState.pick, MergeState.empty] <;> grind

theorem mergedAt_absent_a : mergedAt x none y = y ↔
    ∀ e e', x = some e → y = some e' → e'.hash ≠ e.hash := by
  cases x <;> cases y <;>
    simp only [mergedAt, mergePath, MergeState.pick, MergeState.empty] <;> grind

theorem mergedAt_absent_b : mergedAt x y none = y ↔
    ∀ e e', x = some e → y = some e' → e'.hash ≠ e.hash := by
  cases x <;> cases y <;>
    simp only [mergedAt, mergePath, MergeState.pick, MergeState.empty] <;> grind

/-- Where the decision for a directory is the decision for each of its files: in a directory that
one side left as it was, the other side changed no entry without changing its content, and in a
directory that one side removed and the other changed, no file kept its content. -/
structure Agreeing (base a b : VaultState) : Prop where
  touchedA : ∀ q e e', group b.entries (topLevelPrefix q) = group base.entries (topLevelPrefix q) →
    base.at q = some e → a.at q = some e' → e'.hash = e.hash → e' = e
  touchedB : ∀ q e e', group a.entries (topLevelPrefix q) = group base.entries (topLevelPrefix q) →
    base.at q = some e → b.at q = some e' → e'.hash = e.hash → e' = e
  removedA : ∀ q e e', group a.entries (topLevelPrefix q) = [] →
    group b.entries (topLevelPrefix q) ≠ group base.entries (topLevelPrefix q) →
    base.at q = some e → b.at q = some e' → e'.hash ≠ e.hash
  removedB : ∀ q e e', group b.entries (topLevelPrefix q) = [] →
    group a.entries (topLevelPrefix q) ≠ group base.entries (topLevelPrefix q) →
    base.at q = some e → a.at q = some e' → e'.hash ≠ e.hash

variable {base a b : VaultState}

theorem group_ne_nil_of_at (h : VaultState.at state q = some e) :
    group state.entries (topLevelPrefix q) ≠ [] := by
  intro hnil
  rw [at_eq_none hnil] at h
  cases h

theorem at_congr (h : group state.entries (topLevelPrefix q) = group state'.entries (topLevelPrefix q)) :
    VaultState.at state q = VaultState.at state' q := by
  rw [← lookup_group_at, h, lookup_group_at]

theorem agreeing_iff : Agreeing base a b ↔ ∀ q, (base.choice a b (topLevelPrefix q)).at (base.at q)
    (a.at q) (b.at q) = mergedAt (base.at q) (a.at q) (b.at q) := by
  constructor
  · intro h q
    cases hchoice : base.choice a b (topLevelPrefix q) with
    | a =>
      rcases chooseSide_eq_a.1 hchoice with hb | ⟨ha, -, -, hb⟩
      · rw [at_congr hb]
        exact (mergedAt_unchanged_b.2 fun e e' => h.touchedA q e e' hb).symm
      · rw [at_eq_none hb]
        exact (mergedAt_absent_b.2 fun e e' => h.removedB q e e' hb ha).symm
    | b =>
      obtain ⟨hb, ha | ⟨-, ha⟩⟩ := chooseSide_eq_b.1 hchoice
      · rw [at_congr ha]
        exact (mergedAt_unchanged_a.2 fun e e' => h.touchedB q e e' ha).symm
      · rw [at_eq_none ha]
        exact (mergedAt_absent_a.2 fun e e' => h.removedA q e e' ha hb).symm
    | files => rfl
  · intro h
    constructor
    · intro q e e' hb
      have hq := h q
      rw [VaultState.choice, chooseSide_eq_a.2 (.inl hb), at_congr hb] at hq
      exact mergedAt_unchanged_b.1 hq.symm e e'
    · intro q e e' ha
      by_cases hb : group b.entries (topLevelPrefix q) = group base.entries (topLevelPrefix q)
      · intro he he' _
        rw [at_congr hb, he] at he'
        exact (Option.some.inj he').symm
      · have hq := h q
        rw [VaultState.choice, chooseSide_eq_b.2 ⟨hb, .inl ha⟩, at_congr ha] at hq
        exact mergedAt_unchanged_a.1 hq.symm e e'
    · intro q e e' ha hb he
      have hq := h q
      rw [VaultState.choice, chooseSide_eq_b.2 ⟨hb, .inr ⟨group_ne_nil_of_at he, ha⟩⟩,
        at_eq_none ha] at hq
      exact mergedAt_absent_a.1 hq.symm e e' he
    · intro q e e' hb ha he he'
      have hq := h q
      rw [VaultState.choice, chooseSide_eq_a.2
        (.inr ⟨ha, group_ne_nil_of_at he, group_ne_nil_of_at he', hb⟩), at_eq_none hb] at hq
      exact mergedAt_absent_b.1 hq.symm e e' he he'

section

variable {fromLines : String → String → TextDiff} {hashBytes : Bytes → FileHash} {content : Content}
  {results results' : List (TextMergeTodo × Option FileEntry)} {todos : List TextMergeTodo}

theorem outcomes_paths (h : (todos.map TextMergeTodo.path).Nodup) :
    ((outcomes fromLines hashBytes content todos).map (·.1.path)).Nodup := by
  rw [← map_fst_outcomes content todos, map_map] at h
  exact h

theorem exists_outcome (h : todo ∈ todos) :
    ∃ o, (todo, o) ∈ outcomes fromLines hashBytes content todos := by
  rw [← map_fst_outcomes content todos] at h
  obtain ⟨⟨_, o⟩, hmem, rfl⟩ := mem_map.1 h
  exact ⟨o, hmem⟩

theorem resolvedAt_of_mem (hnd : (results.map (·.1.path)).Nodup) (h : (todo, some e) ∈ results) :
    resolvedAt results todo.path entry = some e := by
  have hlook := lookup_of_mem hnd h
  rw [resolvedAt, hlook]
  rfl

theorem conflict_mem_unmerged (hnd : (results.map (·.1.path)).Nodup) (h : (todo, o) ∈ results) :
    todo.conflict ∈ unmerged results ↔ o = none := by
  simp only [unmerged, mem_map, mem_filter, Option.isNone_iff_eq_none]
  constructor
  · rintro ⟨r, ⟨hr, hnone⟩, hconflict⟩
    have hpath : r.1.path = todo.path := congrArg FileConflict.path hconflict
    have heq : r = (todo, o) := inj_on_of_nodup_map hnd hr h hpath
    rw [heq] at hnone
    exact hnone
  · intro ho
    exact ⟨(todo, o), ⟨h, ho⟩, rfl⟩

theorem mem_of_same_results {f g : String → Option FileEntry} (hnd : (results.map (·.1.path)).Nodup)
    (hnd' : (results'.map (·.1.path)).Nodup) (hsub : ∃ o, (todo, o) ∈ results')
    (hun : unmerged results = unmerged results')
    (hres : ∀ q, resolvedAt results q (f q) = resolvedAt results' q (g q))
    (h : (todo, o) ∈ results) : (todo, o) ∈ results' := by
  obtain ⟨o', h'⟩ := hsub
  have hnone : o = none ↔ o' = none := by
    rw [← conflict_mem_unmerged hnd h, hun, conflict_mem_unmerged hnd' h']
  cases o with
  | none => rwa [hnone.1 rfl] at h'
  | some e =>
    cases o' with
    | none => cases hnone.2 rfl
    | some e' =>
      have hq := hres todo.path
      rw [resolvedAt_of_mem hnd h, resolvedAt_of_mem hnd' h'] at hq
      cases hq
      exact h'

theorem unmerged_pairwise {R : String → String → Prop}
    (h : todos.Pairwise fun t t' => R t.path t'.path) :
    (unmerged (outcomes fromLines hashBytes content todos)).Pairwise fun c d => R c.path d.path := by
  rw [← map_fst_outcomes content todos] at h
  have hresults := pairwise_map.1 h
  rw [unmerged, pairwise_map]
  exact List.Pairwise.filter _ hresults

theorem unmerged_sortBy (hs : Sorted TextMergeTodo.path todos)
    (hperm : (outcomes fromLines hashBytes content (sortBy (topLevelPrefix ·.path) todos)).Perm
      (outcomes fromLines hashBytes content todos)) :
    unmerged (outcomes fromLines hashBytes content (sortBy (topLevelPrefix ·.path) todos)) =
      sortBy (topLevelPrefix ·.path) (unmerged (outcomes fromLines hashBytes content todos)) := by
  have hdirs : (sortBy (topLevelPrefix ·.path) todos).Pairwise fun t t' =>
      topLevelPrefix t.path = topLevelPrefix t'.path → t.path < t'.path := by
    apply pairwise_of_filter_key
    intro pre
    rw [filter_sortBy]
    exact hs.filter _
  have hsame := (@unmerged_pairwise fromLines hashBytes content) (R := fun p q => topLevelPrefix p = topLevelPrefix q → p < q) hdirs
  have hprefixes : (sortBy (topLevelPrefix ·.path) todos).Pairwise fun t t' =>
      topLevelPrefix t.path ≤ topLevelPrefix t'.path := sortBy_pairwise
  have hordered := (@unmerged_pairwise fromLines hashBytes content) (R := fun p q => topLevelPrefix p ≤ topLevelPrefix q) hprefixes
  have hsorted := @sortBy_pairwise _ _ _ (fun c : FileConflict => topLevelPrefix c.path)
    (l := unmerged (outcomes fromLines hashBytes content todos))
  apply eq_of_filter_key hordered hsorted
  · intro pre
    rw [filter_sortBy]
    apply (@Sorted.eq_of_perm _ _ _ FileConflict.path)
    · apply (pairwise_filter.2 (hsame.imp _))
      intro c d hlt hc hd
      rw [decide_eq_true_eq] at hc hd
      exact hlt (hc.trans hd.symm)
    · exact Sorted.filter (unmerged_pairwise hs) _
    · exact ((hperm.filter _).map _).filter _

end

/-- No conflict of a file in a directory stands before one of a file at the root. -/
def InDirectoryOrder (conflicts : List FileConflict) : Prop :=
  conflicts.Pairwise fun c d => topLevelPrefix c.path ≤ topLevelPrefix d.path

/-- The texts merge to the same entries whether the files are tried in the order of their paths or
directory by directory. -/
def TextsAgree (fromLines : String → String → TextDiff) (hashBytes : Bytes → FileHash)
    (content : Content) (todos : List TextMergeTodo) : Prop :=
  (outcomes fromLines hashBytes content (sortBy (topLevelPrefix ·.path) todos)).Perm
    (outcomes fromLines hashBytes content todos)

/-- The two merges leave the same entries and the same conflicts exactly when the decisions agree,
the texts merge alike in both orders, and the conflicts stand in the order of their directories. -/
theorem resolve_eq_iff {fromLines : String → String → TextDiff} (h : PrefixMerged base a b state) :
    ((resolve fromLines hashBytes content state).merged =
        (resolve fromLines hashBytes content (base.flat a b)).merged ∧
      (resolve fromLines hashBytes content state).conflicts =
        (resolve fromLines hashBytes content (base.flat a b)).conflicts) ↔
    Agreeing base a b ∧ TextsAgree fromLines hashBytes content (base.flat a b).textTodo ∧
      InDirectoryOrder (base.flat a b).conflicts ∧
      InDirectoryOrder (unmerged (outcomes fromLines hashBytes content (base.flat a b).textTodo)) := by
  obtain ⟨hcon, hsort, hlook⟩ := resolve_spec h.provisional
  obtain ⟨hcon', hsort', hlook'⟩ := resolve_spec (flat_provisional base a b)
  have htodos := (flat_provisional base a b).todos
  have htodos' : ((sortBy (topLevelPrefix ·.path) (base.flat a b).textTodo).map
      TextMergeTodo.path).Nodup := (sortBy_perm.map _).nodup_iff.2 htodos
  rw [hcon, hcon', h.conflicts, h.textTodo]
  rw [h.textTodo] at hlook
  constructor
  · rintro ⟨hmerged, hconflicts⟩
    obtain ⟨hadd, hun⟩ := append_inj hconflicts sortBy_perm.length_eq
    have hres (q : String) : resolvedAt (outcomes fromLines hashBytes content
          (sortBy (topLevelPrefix ·.path) (base.flat a b).textTodo)) q
          (lookup FileEntry.path state.merged q) =
        resolvedAt (outcomes fromLines hashBytes content (base.flat a b).textTodo) q
          (lookup FileEntry.path (base.flat a b).merged q) := by
      rw [← hlook, ← hlook', hmerged]
    refine ⟨agreeing_iff.2 fun q => ?_, ?_, sortBy_eq_self.1 hadd, ?_⟩
    · by_cases hfiles : base.choice a b (topLevelPrefix q) = .files
      · rw [hfiles]
        rfl
      · have hnone : lookup TextMergeTodo.path (base.flat a b).textTodo q = none := by
          rw [(flat_textTodo base a b).2]
          exact (quiet_of_choice hfiles).2
        have hnot : q ∉ (base.flat a b).textTodo.map TextMergeTodo.path := by
          intro hmem
          obtain ⟨todo, htodo, hpath⟩ := mem_map.1 hmem
          exact lookup_eq_none.1 hnone todo htodo hpath
        have hnot' : q ∉ (sortBy (topLevelPrefix ·.path) (base.flat a b).textTodo).map
            TextMergeTodo.path := fun hmem => hnot ((sortBy_perm.map _).mem_iff.1 hmem)
        have hq := hres q
        rw [resolvedAt_of_not_mem hnot, resolvedAt_of_not_mem hnot', h.merged,
          (flat_merged base a b).2] at hq
        exact hq
    · have hnd := (@outcomes_paths fromLines hashBytes content) htodos
      have hnd' := (@outcomes_paths fromLines hashBytes content) htodos'
      apply (perm_ext_iff_of_nodup (List.Nodup.of_map _ hnd') (List.Nodup.of_map _ hnd)).2
      rintro ⟨todo, o⟩
      constructor
      · intro hmem
        have htodo := mem_map_of_mem (f := Prod.fst) hmem
        rw [map_fst_outcomes, sortBy_perm.mem_iff] at htodo
        exact mem_of_same_results hnd' hnd (exists_outcome htodo) hun hres hmem
      · intro hmem
        have htodo := mem_map_of_mem (f := Prod.fst) hmem
        rw [map_fst_outcomes] at htodo
        exact mem_of_same_results hnd hnd' (exists_outcome (sortBy_perm.mem_iff.2 htodo)) hun.symm
          (fun q => (hres q).symm) hmem
    · rw [← hun]
      exact unmerged_pairwise (R := fun p q => topLevelPrefix p ≤ topLevelPrefix q) sortBy_pairwise
  · rintro ⟨hagree, htexts, hadd, hun⟩
    constructor
    · apply hsort.ext hsort'
      intro q
      rw [hlook, hlook', h.merged, (flat_merged base a b).2, agreeing_iff.1 hagree q, resolvedAt,
        resolvedAt, lookup_perm htexts (outcomes_paths htodos')]
    · rw [sortBy_eq_self.2 hadd, unmerged_sortBy (flat_textTodo base a b).1 htexts,
        sortBy_eq_self.2 hun]

end Obsetync

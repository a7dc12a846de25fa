import Obsetync.Merge.Neutral

namespace Obsetync
open Keyed Fallible TreeV1
open List hiding lookup

def contentOf (entry : Option FileEntry) : Option FileHash := entry.map FileEntry.hash

section

variable (fromLines : String → String → TextDiff) (hashBytes : Bytes → FileHash)

/-- The content is a text merge of what base and both sides have. -/
def TextMerged (base a b : Option FileEntry) (content : Option FileHash) : Prop :=
  ∃ base' a' b' text, base = some base' ∧ a = some a' ∧ b = some b' ∧
    IsTextMerge fromLines hashBytes base'.hash a'.hash b'.hash text ∧ content = some (hashBytes text)

def EditKept (base side other merged : Option FileEntry) : Prop :=
  side = none ∧ base ≠ none ∧ other ≠ none ∧ contentOf other ≠ contentOf base ∧
    contentOf merged = contentOf other

/-- Nothing is lost silently, and nothing comes from elsewhere. -/
structure SafeMerge (base a b : VaultState) (merged : List FileEntry)
    (conflicts : List FileConflict) : Prop where
  sorted : Sorted FileEntry.path merged
  sideA : ∀ q, contentOf (a.at q) ≠ contentOf (base.at q) →
    contentOf (lookup FileEntry.path merged q) = contentOf (a.at q) ∨
    TextMerged fromLines hashBytes (base.at q) (a.at q) (b.at q)
      (contentOf (lookup FileEntry.path merged q)) ∨
    q ∈ conflicts.map FileConflict.path ∨
    EditKept (base.at q) (a.at q) (b.at q) (lookup FileEntry.path merged q)
  sideB : ∀ q, contentOf (b.at q) ≠ contentOf (base.at q) →
    contentOf (lookup FileEntry.path merged q) = contentOf (b.at q) ∨
    TextMerged fromLines hashBytes (base.at q) (a.at q) (b.at q)
      (contentOf (lookup FileEntry.path merged q)) ∨
    q ∈ conflicts.map FileConflict.path ∨
    EditKept (base.at q) (b.at q) (a.at q) (lookup FileEntry.path merged q)
  introduced : ∀ q, lookup FileEntry.path merged q ≠ none → (a.at q ≠ none ∨ b.at q ≠ none) ∧
      (contentOf (lookup FileEntry.path merged q) = contentOf (a.at q) ∨
        contentOf (lookup FileEntry.path merged q) = contentOf (b.at q) ∨
        TextMerged fromLines hashBytes (base.at q) (a.at q) (b.at q)
          (contentOf (lookup FileEntry.path merged q)))

end

/-- In a directory that one side removed and the other changed, no file kept its content. -/
structure NoLostDeletion (base a b : VaultState) : Prop where
  removedA : ∀ q e e', group a.entries (topLevelPrefix q) = [] →
    group b.entries (topLevelPrefix q) ≠ group base.entries (topLevelPrefix q) →
    base.at q = some e → b.at q = some e' → e'.hash ≠ e.hash
  removedB : ∀ q e e', group b.entries (topLevelPrefix q) = [] →
    group a.entries (topLevelPrefix q) ≠ group base.entries (topLevelPrefix q) →
    base.at q = some e → a.at q = some e' → e'.hash ≠ e.hash

/-- A change of a side is kept, left to the text merge, listed, or an edit is kept against it. -/
def Accounted (x side other merged : Option FileEntry) (undecided : Prop) : Prop :=
  contentOf side ≠ contentOf x → contentOf merged = contentOf side ∨ undecided ∨ EditKept x side other merged

def Undecided (q : String) (x y z : Option FileEntry) : Prop :=
  todoAt q x y z ≠ none ∨ conflictAt q x y z ≠ none

theorem mergedAt_accounted (q : String) : Accounted x y z (mergedAt x y z) (Undecided q x y z) ∧
      Accounted x z y (mergedAt x y z) (Undecided q x y z) := by
  cases x <;> cases y <;> cases z <;>
    simp only [Accounted, Undecided, mergedAt, todoAt, conflictAt, mergePath, MergeState.keep,
      MergeState.pick, MergeState.empty, contentOf, EditKept] <;> grind

theorem mergedAt_content (h : mergedAt x y z ≠ none) :
    contentOf (mergedAt x y z) = contentOf y ∨ contentOf (mergedAt x y z) = contentOf z := by
  obtain ⟨e, he⟩ := Option.ne_none_iff_exists'.1 h
  rw [he]
  rcases mergedAt_mem he with rfl | rfl | ⟨a', b', rfl, rfl, rfl, ha, -⟩
  · exact .inl rfl
  · exact .inr rfl
  · exact .inl (congrArg some ha.symm)

variable {codec : NodeCodec} {fromLines : String → String → TextDiff}
  {hashBytes : Bytes → FileHash} {store store' : ChunkStore} {base a b : VaultState}

theorem mem_flat_textTodo : todo ∈ (base.flat a b).textTodo ↔
    todoAt todo.path (base.at todo.path) (a.at todo.path) (b.at todo.path) = some todo := by
  rw [← (flat_textTodo base a b).2, (flat_textTodo base a b).1.lookup_eq_some]
  simp

theorem mem_flat_conflicts : c ∈ (base.flat a b).conflicts ↔
    conflictAt c.path (base.at c.path) (a.at c.path) (b.at c.path) = some c := by
  rw [← (flat_conflicts base a b).2, (flat_conflicts base a b).1.lookup_eq_some]
  simp

theorem resolve_cases {state : MergeState} (hp : state.Provisional)
    (htodo : ∀ todo, todo ∈ state.textTodo ↔ todo ∈ (base.flat a b).textTodo)
    (hconflict : ∀ c, c ∈ state.conflicts ↔ c ∈ (base.flat a b).conflicts) (q : String) :
    (todoAt q (base.at q) (a.at q) (b.at q) ≠ none ∧
        TextMerged fromLines hashBytes (base.at q) (a.at q) (b.at q)
          (contentOf (lookup FileEntry.path (resolve fromLines hashBytes content state).merged q))) ∨
      lookup FileEntry.path (resolve fromLines hashBytes content state).merged q =
          lookup FileEntry.path state.merged q ∧
        (q ∈ (resolve fromLines hashBytes content state).conflicts.map FileConflict.path ↔
          Undecided q (base.at q) (a.at q) (b.at q)) := by
  obtain ⟨hcon, -, hlook⟩ := resolve_spec hp
  have hnd := (@outcomes_paths fromLines hashBytes content) hp.todos
  cases hout : (lookup (·.1.path) (outcomes fromLines hashBytes content state.textTodo) q).bind
      Prod.snd with
  | some e =>
    left
    obtain ⟨todo, hmem, rfl, hresult⟩ := mem_outcomes_of_lookup hout
    obtain ⟨text, htext, rfl⟩ := outcomes_sound hresult
    have hat := mem_flat_textTodo.1 ((htodo todo).1 hmem)
    obtain ⟨base', a', b', hbase, ha, hb, -, -, -, heq⟩ := todoAt_eq_some.1 hat
    rw [heq] at htext
    refine ⟨by rw [hat]; rintro ⟨⟩, base', a', b', text, hbase, ha, hb, htext, ?_⟩
    rw [hlook, resolvedAt, hout]
    rfl
  | none =>
    right
    refine ⟨by rw [hlook, resolvedAt, hout, Option.none_or], ?_⟩
    rw [hcon, map_append, mem_append, Undecided]
    constructor
    · rintro (h | h)
      · right
        obtain ⟨c, hc, rfl⟩ := mem_map.1 h
        rw [mem_flat_conflicts.1 ((hconflict c).1 hc)]
        rintro ⟨⟩
      · left
        obtain ⟨c, hc, rfl⟩ := mem_map.1 h
        obtain ⟨r, hr, rfl⟩ := mem_map.1 hc
        have hmem := mem_map_of_mem (f := Prod.fst) (mem_filter.1 hr).1
        rw [map_fst_outcomes] at hmem
        have hat := mem_flat_textTodo.1 ((htodo r.1).1 hmem)
        intro hnone
        cases hat.symm.trans hnone
    · rintro (h | h)
      · right
        obtain ⟨todo, hat⟩ := Option.ne_none_iff_exists'.1 h
        have hpath : todo.path = q := by
          obtain ⟨_, _, _, -, -, -, -, -, -, rfl⟩ := todoAt_eq_some.1 hat
          rfl
        subst hpath
        have hmem := (htodo todo).2 (mem_flat_textTodo.2 hat)
        obtain ⟨o, ho⟩ := exists_outcome hmem
        rw [lookup_of_mem hnd ho] at hout
        exact mem_map_of_mem (f := FileConflict.path) ((conflict_mem_unmerged hnd ho).2 hout)
      · left
        obtain ⟨c, hat⟩ := Option.ne_none_iff_exists'.1 h
        have hpath := conflictAt_path hat
        subst hpath
        exact mem_map_of_mem ((hconflict c).2 (mem_flat_conflicts.2 hat))

theorem safe_of_provisional (hp : state.Provisional)
    (htodo : ∀ todo, todo ∈ state.textTodo ↔ todo ∈ (base.flat a b).textTodo)
    (hconflict : ∀ c, c ∈ state.conflicts ↔ c ∈ (base.flat a b).conflicts)
    {at' : String → Option FileEntry} (hat' : ∀ q, lookup FileEntry.path state.merged q = at' q)
    (hwithin : Within a b (resolve fromLines hashBytes content state).merged)
    (hside : ∀ q, Accounted (base.at q) (a.at q) (b.at q) (at' q) (Undecided q (base.at q) (a.at q) (b.at q)) ∧
      Accounted (base.at q) (b.at q) (a.at q) (at' q) (Undecided q (base.at q) (a.at q) (b.at q)))
    (hcontent : ∀ q, at' q ≠ none →
      contentOf (at' q) = contentOf (a.at q) ∨ contentOf (at' q) = contentOf (b.at q)) :
    SafeMerge fromLines hashBytes base a b (resolve fromLines hashBytes content state).merged
      (resolve fromLines hashBytes content state).conflicts := by
  have hcases (q : String) := (@resolve_cases fromLines hashBytes _ _ _ content) hp htodo hconflict q
  simp only [hat'] at hcases
  constructor
  · exact hwithin.sorted
  · intro q hne
    rcases hcases q with ⟨-, htext⟩ | ⟨hat, hlisted⟩
    · exact .inr (.inl htext)
    · rw [hat, hlisted]
      exact ((hside q).1 hne).imp_right .inr
  · intro q hne
    rcases hcases q with ⟨-, htext⟩ | ⟨hat, hlisted⟩
    · exact .inr (.inl htext)
    · rw [hat, hlisted]
      exact ((hside q).2 hne).imp_right .inr
  · intro q hne
    refine ⟨hwithin.side hne, ?_⟩
    rcases hcases q with ⟨-, htext⟩ | ⟨hat, -⟩
    · exact .inr (.inr htext)
    · rw [hat] at hne ⊢
      rcases hcontent q hne with h | h
      · exact .inl h
      · exact .inr (.inl h)

theorem safe_flat (base a b : VaultState) : SafeMerge fromLines hashBytes base a b
    (resolve fromLines hashBytes content (base.flat a b)).merged
    (resolve fromLines hashBytes content (base.flat a b)).conflicts :=
  safe_of_provisional (flat_provisional base a b) (fun _ => Iff.rfl) (fun _ => Iff.rfl)
    (flat_merged base a b).2 (within_flat base a b) (fun q => mergedAt_accounted q)
    (fun _ => mergedAt_content)

theorem taken_of_absent (h : ∀ e e', x = some e → y = some e' → e'.hash ≠ e.hash) :
    Accounted x none y y undecided := by
  intro hx
  cases x with
  | none => exact absurd rfl hx
  | some e =>
    cases y with
    | none => exact .inl rfl
    | some e' =>
      refine .inr (.inr ⟨rfl, nofun, nofun, fun heq => ?_, rfl⟩)
      exact h e e' rfl rfl (Option.some.inj heq)

theorem choice_accounted (h : NoLostDeletion base a b) (q : String) :
    Accounted (base.at q) (a.at q) (b.at q) ((base.choice a b (topLevelPrefix q)).at (base.at q) (a.at q) (b.at q))
      (Undecided q (base.at q) (a.at q) (b.at q)) ∧
    Accounted (base.at q) (b.at q) (a.at q) ((base.choice a b (topLevelPrefix q)).at (base.at q) (a.at q) (b.at q))
      (Undecided q (base.at q) (a.at q) (b.at q)) := by
  cases hchoice : base.choice a b (topLevelPrefix q) with
  | a =>
    refine ⟨fun _ => .inl rfl, ?_⟩
    rcases chooseSide_eq_a.1 hchoice with hb | ⟨ha, -, -, hb⟩
    · exact fun hne => absurd (congrArg contentOf (at_congr hb)) hne
    · rw [at_eq_none hb]
      exact taken_of_absent fun e e' => h.removedB q e e' hb ha
  | b =>
    refine ⟨?_, fun _ => .inl rfl⟩
    obtain ⟨hb, ha | ⟨-, ha⟩⟩ := chooseSide_eq_b.1 hchoice
    · exact fun hne => absurd (congrArg contentOf (at_congr ha)) hne
    · rw [at_eq_none ha]
      exact taken_of_absent fun e e' => h.removedA q e e' ha hb
  | files => exact mergedAt_accounted q

theorem choice_content (choice : Choice) (h : choice.at x y z ≠ none) :
    contentOf (choice.at x y z) = contentOf y ∨ contentOf (choice.at x y z) = contentOf z := by
  cases choice with
  | a => exact .inl rfl
  | b => exact .inr rfl
  | files => exact mergedAt_content h

/-- A side that removed a file whose content the other side left alone is not accounted for when the
other side's entry stays. -/
theorem lost_deletion {conflicts : List String} (hx : x = some e) (hz : z = some e')
    (hash : e'.hash = e.hash) (hlisted : q ∉ conflicts)
    (h : contentOf none ≠ contentOf x → contentOf z = contentOf none ∨
      TextMerged fromLines hashBytes x y₁ y₂ (contentOf z) ∨ q ∈ conflicts ∨ EditKept x none z z)
    (hy : y₁ = none ∨ y₂ = none) : False := by
  subst hx hz
  rcases h nofun with h | ⟨_, _, _, _, -, ha, hb, -⟩ | h | ⟨-, -, -, h, -⟩
  · cases h
  · rcases hy with hy | hy
    · cases hy.symm.trans ha
    · cases hy.symm.trans hb
  · exact hlisted h
  · exact h (congrArg some hash)

theorem safe_prefix_iff (h : PrefixMerged base a b state) :
    SafeMerge fromLines hashBytes base a b (resolve fromLines hashBytes content state).merged
      (resolve fromLines hashBytes content state).conflicts ↔ NoLostDeletion base a b := by
  have htodo (todo : TextMergeTodo) : todo ∈ state.textTodo ↔ todo ∈ (base.flat a b).textTodo := by
    rw [h.textTodo, sortBy_perm.mem_iff]
  have hconflict (c : FileConflict) : c ∈ state.conflicts ↔ c ∈ (base.flat a b).conflicts := by
    rw [h.conflicts, sortBy_perm.mem_iff]
  constructor
  · intro hsafe
    -- a directory decided for one side has no conflict and no text merge
    have hquiet (q : String) (hfiles : base.choice a b (topLevelPrefix q) ≠ .files) :
        lookup FileEntry.path (resolve fromLines hashBytes content state).merged q =
            (base.choice a b (topLevelPrefix q)).at (base.at q) (a.at q) (b.at q) ∧
          q ∉ (resolve fromLines hashBytes content state).conflicts.map FileConflict.path := by
      obtain ⟨hc, ht⟩ := quiet_of_choice hfiles
      rcases resolve_cases h.provisional htodo hconflict q with ⟨htodo', -⟩ | ⟨hat, hlisted⟩
      · exact absurd ht htodo'
      · rw [hlisted, Undecided, hc, ht, hat, h.merged]
        simp
    constructor
    · intro q e e' ha hb hbase hb' hash
      have hchoice : base.choice a b (topLevelPrefix q) = .b :=
        chooseSide_eq_b.2 ⟨hb, .inr ⟨group_ne_nil_of_at hbase, ha⟩⟩
      obtain ⟨hat, hlisted⟩ := hquiet q (by rw [hchoice]; nofun)
      have hside := hsafe.sideA q
      rw [hat, hchoice, at_eq_none ha] at hside
      exact lost_deletion hbase hb' hash hlisted hside (.inl rfl)
    · intro q e e' hb ha hbase ha' hash
      have hchoice : base.choice a b (topLevelPrefix q) = .a :=
        chooseSide_eq_a.2 (.inr ⟨ha, group_ne_nil_of_at hbase, group_ne_nil_of_at ha', hb⟩)
      obtain ⟨hat, hlisted⟩ := hquiet q (by rw [hchoice]; nofun)
      have hside := hsafe.sideB q
      rw [hat, hchoice, at_eq_none hb] at hside
      exact lost_deletion hbase ha' hash hlisted hside (.inr rfl)
  · intro hlost
    exact safe_of_provisional h.provisional htodo hconflict h.merged h.within (choice_accounted hlost)
      (fun q => choice_content _)

def VaultState.prefixMerged (base a b : VaultState) : List FileEntry :=
  (unionPaths base.entries a.entries b.entries).filterMap fun q =>
    (base.choice a b (topLevelPrefix q)).at (base.at q) (a.at q) (b.at q)

theorem PrefixMerged.length_eq (h : PrefixMerged base a b state) :
    state.merged.length = (base.prefixMerged a b).length := by
  have hkey : ∀ q e, (base.choice a b (topLevelPrefix q)).at (base.at q) (a.at q) (b.at q) = some e →
      e.path = q := by
    intro q e he
    rw [← h.merged] at he
    exact (mem_of_lookup he).2
  obtain ⟨hsort, hlook⟩ := filterMap_unionPaths_spec base.sorted a.sorted b.sorted
    (f := fun q => (base.choice a b (topLevelPrefix q)).at) hkey
    (fun q => by cases base.choice a b (topLevelPrefix q) <;> rfl)
  have heq : sortBy FileEntry.path state.merged = base.prefixMerged a b := by
    apply (sortBy_sorted h.provisional.paths).ext hsort
    intro q
    rw [lookup_sortBy, h.merged, hlook]
    rfl
  rw [← heq, sortBy_perm.length_eq]

def LosesNothing (codec : NodeCodec) (fromLines : String → String → TextDiff)
    (hashBytes : Bytes → FileHash) (store : ChunkStore) (asRoot : Root → VersionedRoot)
    (merge : Except ChunkError (MergeResult Root × Written)) (base a b : VaultState) : Prop :=
  ∀ r w merged, merge = .ok (r, w) →
    loadAllEntries codec hashBytes store (asRoot r.newRoot) = .ok merged →
    SafeMerge fromLines hashBytes base a b merged r.fileConflicts

/-- The flat merge never loses a change. The prefix merge, which always returns, loses none exactly
when no file of a directory that one side removed and the other changed kept its content (or the
result is too large to be loaded). -/
theorem merge_losesNothing_iff (codec : NodeCodec) (fromLines : String → String → TextDiff)
    (hashBytes : Bytes → FileHash) (store store' : ChunkStore) (nowMs : UInt64) (content : Content)
    (base a b : VaultState) (rbase ra rb : RootNode) (rbase' ra' rb' : VersionedRoot)
    (hc : codec.Lawful) (hsbase : base.Storable) (hsa : a.Storable) (hsb : b.Storable)
    (hbase : Stored codec hashBytes store base (.v1 rbase))
    (ha : Stored codec hashBytes store a (.v1 ra)) (hb : Stored codec hashBytes store b (.v1 rb))
    (hbase' : Stored codec hashBytes store base rbase') (ha' : Stored codec hashBytes store a ra')
    (hb' : Stored codec hashBytes store b rb') (hmixed : Mixed rbase' ra' rb')
    (hput : HoldsPut hashBytes store'
      (mergeTrees codec fromLines hashBytes store nowMs content rbase ra rb))
    (hput' : HoldsPut hashBytes store'
      (mergeVersionedTrees codec fromLines hashBytes store nowMs content rbase' ra' rb')) :
    LosesNothing codec fromLines hashBytes store' id
      (mergeVersionedTrees codec fromLines hashBytes store nowMs content rbase' ra' rb') base a b ∧
    ((base.flat a b).merged.length ≤ TreeV2.maxLoadedEntries → ∃ r w merged,
      mergeVersionedTrees codec fromLines hashBytes store nowMs content rbase' ra' rb' = .ok (r, w) ∧
        loadAllEntries codec hashBytes store' r.newRoot = .ok merged) ∧
    (∃ r w, mergeTrees codec fromLines hashBytes store nowMs content rbase ra rb = .ok (r, w)) ∧
    (LosesNothing codec fromLines hashBytes store' .v1
        (mergeTrees codec fromLines hashBytes store nowMs content rbase ra rb) base a b ↔
      ((base.prefixMerged a b).length ≤ TreeV2.maxLoadedEntries → NoLostDeletion base a b)) := by
  obtain ⟨state, r, w, hmerge, hspec, hconflicts, hbuilt⟩ := mergeTrees_ok
    hc hbase ha hb hsbase hsa hsb
  have hloads {loaded : List FileEntry} := @Within.loads_iff _ _ _ _ _ _ _ _ loaded hc hspec.within
    hsa hsb hbuilt (hput r w hmerge)
  rw [length_resolve hspec.provisional, hspec.length_eq] at hloads
  have hloads' {r' w'} (hflat : mergeVersionedTrees codec fromLines hashBytes store nowMs content
      rbase' ra' rb' = .ok (r', w')) {loaded : List FileEntry} :=
    @Within.loads_iff _ _ _ _ _ _ _ _ loaded hc (within_flat base a b) hsa hsb
      (mergeVersionedTrees_built hc hmixed hbase' ha' hb' hsbase hsa hsb hflat).2
      (hput' r' w' hflat)
  refine ⟨?_, ?_, ⟨r, w, hmerge⟩, ?_, ?_⟩
  · intro r' w' merged hflat hload
    obtain ⟨-, rfl⟩ := (hloads' hflat).1 hload
    rw [(mergeVersionedTrees_built hc hmixed hbase' ha' hb' hsbase hsa hsb hflat).1]
    exact safe_flat base a b
  · intro hfit
    rw [← length_resolve (flat_provisional base a b)] at hfit
    obtain ⟨r', w', hflat⟩ := mergeVersionedTrees_ok hc hmixed hbase' ha' hb' hsbase hsa hsb hfit
    exact ⟨r', w', _, hflat, (hloads' hflat).2 ⟨hfit, rfl⟩⟩
  · intro hsafe hfit
    have hmerged := hsafe r w _ hmerge (hloads.2 ⟨hfit, rfl⟩)
    rw [hconflicts] at hmerged
    exact (safe_prefix_iff hspec).1 hmerged
  · intro hlost r₁ w₁ merged hpre hload
    cases hmerge.symm.trans hpre
    obtain ⟨hfit, rfl⟩ := hloads.1 hload
    rw [hconflicts]
    exact (safe_prefix_iff hspec).2 (hlost hfit)

section Samples

open TreeV2 (lengthHash storeOf)

theorem merge_losesNothing_on_edited :
    LosesNothing unaryCodec noDiff lengthHash (sampleStore edited) id
      (mergeVersionedTrees unaryCodec noDiff lengthHash (sampleStore edited) 0 (fun _ => none)
        (sampleV2 untouched) (.v1 (sampleV1 (oneFile edited)).1) (sampleV2 untouched))
      (oneFile untouched) (oneFile edited) (oneFile untouched) ∧
    (LosesNothing unaryCodec noDiff lengthHash (sampleStore edited) .v1
        (mergeTrees unaryCodec noDiff lengthHash (sampleStore edited) 0 (fun _ => none)
          (sampleV1 (oneFile untouched)).1 (sampleV1 (oneFile edited)).1
          (sampleV1 (oneFile untouched)).1)
        (oneFile untouched) (oneFile edited) (oneFile untouched) ↔
      (((oneFile untouched).prefixMerged (oneFile edited) (oneFile untouched)).length ≤
          TreeV2.maxLoadedEntries →
        NoLostDeletion (oneFile untouched) (oneFile edited) (oneFile untouched))) := by
  have hpath : TreeV2.validatePath "a" = .ok () := by decide +kernel
  obtain ⟨hv1, hedited, hv2⟩ := sampleStore_holds edited_noCollision
  obtain ⟨hflat, -, -, hpre⟩ := merge_losesNothing_iff unaryCodec noDiff lengthHash _ _ 0 _ _ _ _ _
    _ _ _ _ _ unaryCodec_lawful (sampleFile_storable hpath) (sampleFile_storable hpath)
    (sampleFile_storable hpath) hv1 hedited hv1 hv2 hedited hv2 (by unfold Mixed; decide)
    edited_holdsPut.1 edited_holdsPut.2
  exact ⟨hflat, hpre⟩

def kept : FileEntry := sampleFile "d/x" 1 0

def directory : VaultState := ⟨[kept, sampleFile "d/y" 2 0], by decide +kernel⟩

def directoryEdited : VaultState := ⟨[kept, sampleFile "d/y" 3 0], by decide +kernel⟩

def directoryRemoved : VaultState := ⟨[], List.Pairwise.nil⟩

def directoryStore : ChunkStore :=
  storeOf lengthHash ((sampleV1 directory).2 ++ (sampleV1 directoryEdited).2)

/-- One side removed a directory, the other edited one of its files. The prefix merge brings back the
file that nobody edited. -/
theorem mergeTrees_loses_deletion :
    Stored unaryCodec lengthHash directoryStore directory (.v1 (sampleV1 directory).1) ∧
    Stored unaryCodec lengthHash directoryStore directoryRemoved (.v1 (sampleV1 directoryRemoved).1) ∧
    Stored unaryCodec lengthHash directoryStore directoryEdited (.v1 (sampleV1 directoryEdited).1) ∧
    (mergeTrees unaryCodec noDiff lengthHash directoryStore 0 (fun _ => none) (sampleV1 directory).1
      (sampleV1 directoryRemoved).1 (sampleV1 directoryEdited).1).map (fun p => (loadAllEntries
        unaryCodec lengthHash directoryStore (.v1 p.1.newRoot), p.1.fileConflicts)) =
      .ok (.ok directoryEdited.entries, []) ∧
    ¬ LosesNothing unaryCodec noDiff lengthHash directoryStore .v1
      (mergeTrees unaryCodec noDiff lengthHash directoryStore 0 (fun _ => none) (sampleV1 directory).1
        (sampleV1 directoryRemoved).1 (sampleV1 directoryEdited).1)
      directory directoryRemoved directoryEdited := by
  have hcollision : TreeV2.NoCollision lengthHash
      ((sampleV1 directory).2 ++ (sampleV1 directoryEdited).2) := by
    unfold TreeV2.NoCollision
    decide +kernel
  have hholds : directoryStore.Holds lengthHash
      ((sampleV1 directory).2 ++ (sampleV1 directoryEdited).2) := hcollision.holds
  have hmerge : (mergeTrees unaryCodec noDiff lengthHash directoryStore 0 (fun _ => none)
      (sampleV1 directory).1 (sampleV1 directoryRemoved).1 (sampleV1 directoryEdited).1).map
        (fun p => (loadAllEntries unaryCodec lengthHash directoryStore (.v1 p.1.newRoot),
          p.1.fileConflicts)) = .ok (.ok directoryEdited.entries, []) := by
    decide +kernel
  have hbase : directory.at "d/x" = some kept := by decide +kernel
  have hedited : directoryEdited.at "d/x" = some kept := by decide +kernel
  refine ⟨stored_sampleV1 fun c hc => hholds c (mem_append_left _ hc), stored_sampleV1 nofun,
    stored_sampleV1 fun c hc => hholds c (mem_append_right _ hc), hmerge, ?_⟩
  intro hsafe
  obtain ⟨⟨r, w⟩, hr, hresult⟩ := map_eq_ok.1 hmerge
  obtain ⟨hload, hconflicts⟩ := Prod.mk.inj hresult
  have hside := (hsafe r w _ hr hload).sideA "d/x"
  rw [hconflicts] at hside
  exact lost_deletion hbase hedited rfl not_mem_nil hside (.inl rfl)

end Samples

end Obsetync

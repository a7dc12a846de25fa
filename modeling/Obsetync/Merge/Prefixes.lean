import Obsetync.Merge.Trees

namespace Obsetync
open Keyed Fallible TreeV1 List

/-- How the prefix merge decides a directory: for one side as a whole, or file by file. -/
inductive Choice
  | a
  | b
  | files
  deriving DecidableEq

def chooseSide (base a b : List FileEntry) : Choice :=
  if b = base then .a
  else if a = base then .b
  else if base ≠ [] ∧ a = [] then .b
  else if base ≠ [] ∧ b = [] then .a
  else .files

def mergeGroup (autoResolved : Nat) (base a b : List FileEntry) : MergeState :=
  match chooseSide base a b with
  | .a => ⟨a, [], autoResolved, []⟩
  | .b => ⟨b, [], autoResolved, []⟩
  | .files => { mergeEntryLists base a b with autoResolved }

/-- The node of a directory in a store: none for no entries. -/
structure Child (codec : NodeCodec) (store : ChunkStore) (hash : Option FileHash)
    (entries : List FileEntry) : Prop where
  absent : hash = none ↔ entries = []
  loads : ∀ h, hash = some h → TreeV1.loadAllEntries codec store h = .ok entries

variable {codec : NodeCodec} {fromLines : String → String → TextDiff}
  {hashBytes : Bytes → FileHash} {store : ChunkStore}

theorem Child.of_none (h : Child codec store none entries) : entries = [] := h.absent.1 rfl

theorem Child.of_some {hash : FileHash} (h : Child codec store (some hash) entries) :
    entries ≠ [] ∧ TreeV1.loadAllEntries codec store hash = .ok entries :=
  ⟨fun hnil => (nomatch h.absent.2 hnil), h.loads hash rfl⟩

theorem mergePrefix_eq {hbase ha hb : Option FileHash} (base' : Child codec store hbase base)
    (a' : Child codec store ha a) (b' : Child codec store hb b) (hab : ha = hbase ↔ a = base)
    (hbb : hb = hbase ↔ b = base) :
    ∃ n, mergePrefix codec store hbase ha hb = .ok (mergeGroup n base a b) := by
  cases hbase with
  | none =>
    obtain rfl := base'.of_none
    cases ha with
    | none =>
      obtain rfl := a'.of_none
      cases hb with
      | none =>
        obtain rfl := b'.of_none
        exact ⟨0, rfl⟩
      | some hb =>
        obtain ⟨hne, hload⟩ := b'.of_some
        refine ⟨1, ?_⟩
        simp [mergePrefix, mergeGroup, chooseSide, hload, hne, MergeState.pick]
    | some ha =>
      obtain ⟨hane, haload⟩ := a'.of_some
      cases hb with
      | none =>
        obtain rfl := b'.of_none
        refine ⟨1, ?_⟩
        simp [mergePrefix, mergeGroup, chooseSide, haload, MergeState.pick]
      | some hb =>
        obtain ⟨hbne, hbload⟩ := b'.of_some
        refine ⟨(mergeEntryLists [] a b).autoResolved, ?_⟩
        simp [mergePrefix, mergeGroup, chooseSide, haload, hbload, hane, hbne]
  | some hbase =>
    obtain ⟨hne, hload⟩ := base'.of_some
    cases ha with
    | none =>
      obtain rfl := a'.of_none
      cases hb with
      | none =>
        obtain rfl := b'.of_none
        refine ⟨0, ?_⟩
        simp [mergePrefix, mergeGroup, chooseSide, hne, hne.symm, MergeState.empty]
      | some hb =>
        obtain ⟨hbne, hbload⟩ := b'.of_some
        rw [Option.some.injEq] at hbb
        by_cases h : b = base
        · refine ⟨0, ?_⟩
          simp [mergePrefix, mergeGroup, chooseSide, hbb.2 h, h, MergeState.empty]
        · refine ⟨1, ?_⟩
          simp [mergePrefix, mergeGroup, chooseSide, mt hbb.1 h, h, hbload, hne, hne.symm,
            MergeState.pick]
    | some ha =>
      obtain ⟨hane, haload⟩ := a'.of_some
      rw [Option.some.injEq] at hab
      cases hb with
      | none =>
        obtain rfl := b'.of_none
        by_cases h : a = base
        · refine ⟨0, ?_⟩
          simp [mergePrefix, mergeGroup, chooseSide, hab.2 h, h, hne.symm, MergeState.empty]
        · refine ⟨1, ?_⟩
          simp [mergePrefix, mergeGroup, chooseSide, mt hab.1 h, h, haload, hne, hne.symm, hane,
            MergeState.pick]
      | some hb =>
        obtain ⟨hbne, hbload⟩ := b'.of_some
        rw [Option.some.injEq] at hbb
        by_cases hb' : b = base
        · by_cases ha' : a = base
          · refine ⟨0, ?_⟩
            simp [mergePrefix, mergeGroup, chooseSide, hbb.2 hb', hab.2 ha', ha', hb', hload]
          · refine ⟨1, ?_⟩
            simp [mergePrefix, mergeGroup, chooseSide, hbb.2 hb', mt hab.1 ha', hb', haload,
              MergeState.pick]
        · by_cases ha' : a = base
          · refine ⟨1, ?_⟩
            simp [mergePrefix, mergeGroup, chooseSide, mt hbb.1 hb', hab.2 ha', hb', ha', hbload,
              MergeState.pick]
          · refine ⟨(mergeEntryLists base a b).autoResolved, ?_⟩
            simp [mergePrefix, mergeGroup, chooseSide, mt hbb.1 hb', mt hab.1 ha', ha', hb', hload,
              haload, hbload, hane, hbne]

theorem Stored.v1 (h : Stored codec hashBytes store state (.v1 root)) : ∃ nowMs vaultId deviceId,
      root.children = (buildTree codec hashBytes nowMs state.entries vaultId deviceId).1.children ∧
        store.Holds hashBytes (buildTree codec hashBytes nowMs state.entries vaultId deviceId).2 := by
  obtain ⟨put, ⟨nowMs, version, vaultId, deviceId, built, createdMs, parentHash, deviceId', hb, hroot⟩,
    hput⟩ := h
  obtain ⟨-, -, -, ⟨rfl, rfl⟩ | ⟨tree, -, rfl⟩⟩ := buildRoot_cases hb
  · cases hroot
    exact ⟨nowMs, vaultId, deviceId, rfl, hput⟩
  · cases hroot

theorem Stored.child_eq (h : Stored codec hashBytes store state (.v1 root)) (pre : String) :
    root.child pre = childHash codec hashBytes state.entries pre := by
  obtain ⟨nowMs, vaultId, deviceId, hchildren, -⟩ := h.v1
  rw [RootNode.child, hchildren, (children_sorted state.sorted).latest_eq,
    lookup_children state.sorted]
  cases childHash codec hashBytes state.entries pre <;> rfl

theorem Stored.mem_children (h : Stored codec hashBytes store state (.v1 root)) (pre : String) :
    pre ∈ root.children.map Prod.fst ↔ group state.entries pre ≠ [] := by
  obtain ⟨nowMs, vaultId, deviceId, hchildren, -⟩ := h.v1
  rw [hchildren, group_ne_nil]
  simp [buildTree, builtGroups]

theorem Stored.child (hc : codec.Lawful) (hst : state.Storable)
    (h : Stored codec hashBytes store state (.v1 root)) (pre : String) :
    Child codec store (root.child pre) (group state.entries pre) := by
  obtain ⟨nowMs, vaultId, deviceId, -, hstore⟩ := h.v1
  rw [h.child_eq]
  constructor
  · rw [childHash]
    split_ifs with hnil
    · simp [hnil]
    · simp [hnil]
  · intro hash hhash
    exact loadAllEntries_child hc state.sorted ((length_filter_le _ _).trans hst.length_le) hstore
      hhash

theorem Stored.child_eq_iff (hc : codec.Lawful) (hst : state.Storable) (hst' : state'.Storable)
    (h : Stored codec hashBytes store state (.v1 root))
    (h' : Stored codec hashBytes store state' (.v1 root')) (pre : String) :
    root.child pre = root'.child pre ↔ group state.entries pre = group state'.entries pre := by
  constructor
  · intro heq
    have hchild := h.child hc hst pre
    have hchild' := h'.child hc hst' pre
    rw [← heq] at hchild'
    cases hroot : root.child pre with
    | none => rw [hchild.absent.1 hroot, hchild'.absent.1 hroot]
    | some hash => exact Except.ok.inj ((hchild.loads hash hroot).symm.trans (hchild'.loads hash hroot))
  · intro heq
    rw [h.child_eq, h'.child_eq, childHash, childHash, heq]

section

variable {base a b : VaultState} {rbase ra rb : RootNode}

theorem allPrefixes_spec (hbase : Stored codec hashBytes store base (.v1 rbase))
    (ha : Stored codec hashBytes store a (.v1 ra)) (hb : Stored codec hashBytes store b (.v1 rb)) :
    Sorted id (allPrefixes rbase ra rb) ∧ ∀ pre, pre ∈ allPrefixes rbase ra rb ↔
      group base.entries pre ≠ [] ∨ group a.entries pre ≠ [] ∨ group b.entries pre ≠ [] := by
  obtain ⟨hsort, hmem⟩ := distinct_spec
    ((rbase.children ++ ra.children ++ rb.children).map Prod.fst)
  refine ⟨hsort, fun pre => ?_⟩
  rw [allPrefixes, hmem, map_append, map_append, mem_append, mem_append,
    hbase.mem_children, ha.mem_children, hb.mem_children, or_assoc]

theorem mergePrefixes_eq (hc : codec.Lawful) (hbase : Stored codec hashBytes store base (.v1 rbase))
    (ha : Stored codec hashBytes store a (.v1 ra)) (hb : Stored codec hashBytes store b (.v1 rb))
    (hsbase : base.Storable) (hsa : a.Storable) (hsb : b.Storable) :
    let part (pre : String) := mergeGroup 0 (group base.entries pre) (group a.entries pre)
      (group b.entries pre)
    ∃ state, mergePrefixes codec store rbase ra rb = .ok state ∧
      state.merged = (allPrefixes rbase ra rb).flatMap (fun pre => (part pre).merged) ∧
      state.conflicts = (allPrefixes rbase ra rb).flatMap (fun pre => (part pre).conflicts) ∧
      state.textTodo = (allPrefixes rbase ra rb).flatMap (fun pre => (part pre).textTodo) := by
  intro part
  choose n hn using fun pre => mergePrefix_eq (hbase.child hc hsbase pre) (ha.child hc hsa pre)
    (hb.child hc hsb pre) (ha.child_eq_iff hc hsa hsbase hbase pre)
    (hb.child_eq_iff hc hsb hsbase hbase pre)
  have hstates : (allPrefixes rbase ra rb).mapM (fun pre =>
      mergePrefix codec store (rbase.child pre) (ra.child pre) (rb.child pre)) =
      .ok ((allPrefixes rbase ra rb).map fun pre => mergeGroup (n pre) (group base.entries pre)
        (group a.entries pre) (group b.entries pre)) := by
    rw [mapM_eq_ok, forall₂_map_right_iff, forall₂_same]
    intro pre _
    exact hn pre
  have hpart (pre : String) (k : Nat) :
      (mergeGroup k (group base.entries pre) (group a.entries pre) (group b.entries pre)) =
        { part pre with autoResolved := k } := by
    simp only [part, mergeGroup]
    split <;> rfl
  obtain ⟨hm, hcf, ht⟩ := foldl_append_eq (s := .empty)
    (f := fun pre => mergeGroup (n pre) (group base.entries pre) (group a.entries pre)
      (group b.entries pre))
  refine ⟨_, bind_eq_ok.2 ⟨_, hstates, rfl⟩, ?_⟩
  rw [foldl_map]
  simp only [hpart] at hm hcf ht ⊢
  exact ⟨hm, hcf, ht⟩

end

end Obsetync

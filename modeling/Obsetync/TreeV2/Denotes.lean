import Obsetync.TreeV2.Spans

namespace Obsetync.TreeV2
open Segmentation Fallible Keyed List

variable {hashBytes : Bytes → FileHash} {store : ChunkStore}

/-- The leaves and the entries under a list of ranges, all of whose nodes load, and the number of
those nodes. -/
inductive Denotes (hashBytes : Bytes → FileHash) (store : ChunkStore) :
    List RangeRef → List RangeRef → List FileEntry → Nat → Prop where
  | nil : Denotes hashBytes store [] [] [] 0
  | leaf : r.height = 0 → loadNode hashBytes store r = .ok (.leaf l) →
      Denotes hashBytes store rs ls es n → Denotes hashBytes store (r :: rs) (r :: ls) (l ++ es) (n + 1)
  | node : r.height ≠ 0 → loadNode hashBytes store r = .ok (.internal childHeight children) →
      Denotes hashBytes store (children ++ rs) ls es n → Denotes hashBytes store (r :: rs) ls es (n + 1)

theorem Denotes.append (h : Denotes hashBytes store rs ls es n)
    (h' : Denotes hashBytes store rs' ls' es' n') :
    Denotes hashBytes store (rs ++ rs') (ls ++ ls') (es ++ es') (n + n') := by
  induction h with
  | nil =>
    rw [Nat.zero_add]
    exact h'
  | leaf hz hload hs ih =>
    rw [append_assoc, Nat.add_right_comm]
    exact .leaf hz hload ih
  | node hz hload hs ih =>
    rw [Nat.add_right_comm]
    rw [append_assoc] at ih
    exact .node hz hload ih

theorem Denotes.split (h : Denotes hashBytes store (rs ++ rs') ls es n) :
    ∃ l l' e e' m m', ls = l ++ l' ∧ es = e ++ e' ∧ n = m + m' ∧
      Denotes hashBytes store rs l e m ∧ Denotes hashBytes store rs' l' e' m' := by
  generalize hrs : rs ++ rs' = all at h
  induction h generalizing rs with
  | nil =>
    obtain ⟨rfl, rfl⟩ := append_eq_nil_iff.1 hrs
    exact ⟨[], [], [], [], 0, 0, rfl, rfl, rfl, .nil, .nil⟩
  | leaf hz hload hs ih =>
    cases rs with
    | nil =>
      subst hrs
      exact ⟨[], _, [], _, 0, _, rfl, rfl, (Nat.zero_add _).symm, .nil, .leaf hz hload hs⟩
    | cons r rs =>
      obtain ⟨rfl, hrest⟩ := List.cons.inj hrs
      obtain ⟨l, l', e, e', m, m', rfl, rfl, rfl, hl, hl'⟩ := ih hrest
      exact ⟨_, l', _, e', _, m', rfl, (append_assoc _ e e').symm, Nat.add_right_comm m m' 1,
        .leaf hz hload hl, hl'⟩
  | node hz hload hs ih =>
    cases rs with
    | nil =>
      subst hrs
      exact ⟨[], _, [], _, 0, _, rfl, rfl, (Nat.zero_add _).symm, .nil, .node hz hload hs⟩
    | cons r rs =>
      obtain ⟨rfl, rfl⟩ := List.cons.inj hrs
      obtain ⟨l, l', e, e', m, m', rfl, rfl, rfl, hl, hl'⟩ := ih (append_assoc _ rs rs')
      exact ⟨l, l', e, e', _, m', rfl, rfl, Nat.add_right_comm m m' 1, .node hz hload hl, hl'⟩

theorem TraversalBudget.node_eq_ok {budget : TraversalBudget} :
    budget.node depth = .ok budget' ↔ depth ≤ maxTreeDepth ∧ budget.nodes + 1 ≤ maxVisitedNodes ∧
      ⟨budget.nodes + 1, budget.entries⟩ = budget' := by
  simp only [node, bind_eq_ok, exists_unit, reject_eq_ok, pure_eq_ok, decide_eq_false_iff_not,
    UInt16.not_lt, not_lt]

theorem TraversalBudget.addEntries_eq_ok {count} {budget : TraversalBudget} :
    budget.addEntries count = .ok budget' ↔ budget.entries + count ≤ maxLoadedEntries ∧
      ⟨budget.nodes, budget.entries + count⟩ = budget' := by
  simp only [addEntries, bind_eq_ok, exists_unit, reject_eq_ok, pure_eq_ok, decide_eq_false_iff_not,
    not_lt]

theorem height_le_of_loadNode (h : loadNode hashBytes store r = .ok node) :
    r.height ≤ maxTreeDepth :=
  (validateRange_eq_ok.1 (decodeNode_of_loadNode h).1).height_le

theorem collectLoop_of_denotes (h : Denotes hashBytes store pending ls es n) (hfuel : n ≤ fuel)
    (hn : budget.nodes + n ≤ maxVisitedNodes) :
    collectLoop hashBytes store fuel pending budget leaves =
      .ok (leaves ++ ls, ⟨budget.nodes + n, budget.entries⟩) := by
  induction h generalizing fuel budget leaves with
  | nil => cases fuel <;> simp [collectLoop]
  | @leaf r l rs ls es n hz hload hs ih =>
    obtain ⟨fuel, rfl⟩ : ∃ k, fuel = k + 1 := Nat.exists_eq_add_one.2 (Nat.zero_lt_of_lt hfuel)
    have hnode : budget.node r.height = .ok ⟨budget.nodes + 1, budget.entries⟩ :=
      TraversalBudget.node_eq_ok.2 ⟨height_le_of_loadNode hload, by omega, rfl⟩
    rw [collectLoop, bind_eq_ok]
    refine ⟨_, hnode, ?_⟩
    rw [if_pos hz, ih (by omega) (by simp only; omega), append_assoc]
    simp only [singleton_append, Nat.add_assoc, Nat.add_comm 1]
  | @node r childHeight children rs ls es n hz hload hs ih =>
    obtain ⟨fuel, rfl⟩ : ∃ k, fuel = k + 1 := Nat.exists_eq_add_one.2 (Nat.zero_lt_of_lt hfuel)
    have hnode : budget.node r.height = .ok ⟨budget.nodes + 1, budget.entries⟩ :=
      TraversalBudget.node_eq_ok.2 ⟨height_le_of_loadNode hload, by omega, rfl⟩
    rw [collectLoop, bind_eq_ok]
    refine ⟨_, hnode, ?_⟩
    rw [if_neg hz, bind_eq_ok]
    refine ⟨_, hload, ?_⟩
    simp only [(@ih fuel ⟨budget.nodes + 1, budget.entries⟩) (by omega)
      (by simp only; omega), Nat.add_assoc, Nat.add_comm 1]

theorem denotes_of_collectLoop
    (h : collectLoop hashBytes store fuel pending budget leaves = .ok (out, budget'))
    (hload : ∀ r ∈ out, ∃ l, loadNode hashBytes store r = .ok (.leaf l))
    (hn : budget.nodes ≤ maxVisitedNodes) :
    ∃ ls es n, Denotes hashBytes store pending ls es n ∧ out = leaves ++ ls ∧
      budget.nodes + n ≤ maxVisitedNodes ∧ budget' = ⟨budget.nodes + n, budget.entries⟩ := by
  induction fuel generalizing pending budget leaves with
  | zero =>
    cases pending with
    | nil =>
      cases h
      exact ⟨[], [], 0, .nil, (append_nil _).symm, hn, rfl⟩
    | cons r pending => cases h
  | succ fuel ih =>
    cases pending with
    | nil =>
      cases h
      exact ⟨[], [], 0, .nil, (append_nil _).symm, hn, rfl⟩
    | cons r pending =>
      rw [collectLoop, bind_eq_ok] at h
      obtain ⟨budget₁, hnode, h⟩ := h
      obtain ⟨-, hn₁, rfl⟩ := TraversalBudget.node_eq_ok.1 hnode
      split_ifs at h with hz
      · obtain ⟨ls, es, n, hs, rfl, hn₂, rfl⟩ := ih h hn₁
        obtain ⟨l, hl⟩ := hload r (by simp)
        refine ⟨r :: ls, _, _, .leaf hz hl hs, by simp, by simp only at hn₂; omega, ?_⟩
        simp only [Nat.add_assoc, Nat.add_comm 1]
      · obtain ⟨node, hnode, h⟩ := bind_eq_ok.1 h
        cases node with
        | leaf entries => cases h
        | internal childHeight children =>
          obtain ⟨ls, es, n, hs, rfl, hn₂, rfl⟩ := ih h hn₁
          refine ⟨ls, es, _, .node hz hnode hs, rfl, by simp only at hn₂; omega, ?_⟩
          simp only [Nat.add_assoc, Nat.add_comm 1]

theorem Denotes.unique (h : Denotes hashBytes store rs ls es n)
    (h' : Denotes hashBytes store rs ls' es' n') : ls = ls' ∧ es = es' ∧ n = n' := by
  induction h generalizing ls' es' n' with
  | nil =>
    cases h'
    exact ⟨rfl, rfl, rfl⟩
  | leaf hz hload hs ih =>
    cases h' with
    | leaf hz' hload' hs' =>
      cases hload.symm.trans hload'
      obtain ⟨rfl, rfl, rfl⟩ := ih hs'
      exact ⟨rfl, rfl, rfl⟩
    | node hz' hload' hs' => exact absurd hz hz'
  | node hz hload hs ih =>
    cases h' with
    | leaf hz' hload' hs' => exact absurd hz' hz
    | node hz' hload' hs' =>
      cases hload.symm.trans hload'
      obtain ⟨rfl, rfl, rfl⟩ := ih hs'
      exact ⟨rfl, rfl, rfl⟩

theorem Denotes.leaves (h : Denotes hashBytes store rs ls es n) :
    Denotes hashBytes store ls ls es ls.length := by
  induction h with
  | nil => exact .nil
  | leaf hz hload hs ih => exact .leaf hz hload ih
  | node hz hload hs ih => exact ih

theorem loadLeaf_eq_ok : loadLeaf hashBytes store leaf budget = .ok (l, budget') ↔
    loadNode hashBytes store leaf = .ok (.leaf l) ∧ budget.nodes + 1 ≤ maxVisitedNodes ∧
      budget.entries + l.length ≤ maxLoadedEntries ∧
      ⟨budget.nodes + 1, budget.entries + l.length⟩ = budget' := by
  simp only [loadLeaf, bind_eq_ok, TraversalBudget.node_eq_ok]
  constructor
  · rintro ⟨_, ⟨-, hn, rfl⟩, node, hload, h⟩
    cases node with
    | internal childHeight children => cases h
    | leaf entries =>
      simp only [bind_eq_ok, TraversalBudget.addEntries_eq_ok, pure_eq_ok] at h
      obtain ⟨_, ⟨he, rfl⟩, heq⟩ := h
      cases heq
      exact ⟨hload, hn, he, rfl⟩
  · rintro ⟨hload, hn, he, rfl⟩
    refine ⟨_, ⟨UInt16.zero_le, hn, rfl⟩, _, hload, ?_⟩
    simp only [bind_eq_ok, TraversalBudget.addEntries_eq_ok, pure_eq_ok]
    exact ⟨_, ⟨he, rfl⟩, rfl⟩

theorem loadLeaves_eq_ok (hz : ∀ r ∈ leaves, r.height = 0)
    (hn : budget.nodes ≤ maxVisitedNodes) (he : budget.entries ≤ maxLoadedEntries) :
    loadLeaves hashBytes store leaves budget = .ok (es, budget') ↔
      Denotes hashBytes store leaves leaves es leaves.length ∧
      budget.nodes + leaves.length ≤ maxVisitedNodes ∧
      budget.entries + es.length ≤ maxLoadedEntries ∧
      ⟨budget.nodes + leaves.length, budget.entries + es.length⟩ = budget' := by
  induction leaves generalizing budget es with
  | nil =>
    rw [loadLeaves]
    constructor
    · intro h
      cases h
      exact ⟨.nil, hn, he, rfl⟩
    · rintro ⟨h, -, -, rfl⟩
      cases h
      rfl
  | cons leaf leaves ih =>
    have hz' : ∀ r ∈ leaves, r.height = 0 := fun r hr => hz r (mem_cons_of_mem _ hr)
    simp only [loadLeaves, bind_eq_ok, pure_eq_ok]
    constructor
    · rintro ⟨⟨l, budget₁⟩, hl, ⟨rest, budget₂⟩, hrest, heq⟩
      cases heq
      obtain ⟨hload, hn₁, he₁, rfl⟩ := loadLeaf_eq_ok.1 hl
      obtain ⟨hd, hn₂, he₂, rfl⟩ := (ih hz' hn₁ he₁).1 hrest
      simp only [length_cons, length_append] at *
      refine ⟨.leaf (hz leaf mem_cons_self) hload hd, by omega, by omega, ?_⟩
      simp only [Nat.add_assoc, Nat.add_comm 1]
    · rintro ⟨h, hn₁, he₁, rfl⟩
      cases h with
      | @leaf _ l _ _ es _ hzero hload hd =>
        simp only [length_cons, length_append] at *
        have hbudget : (⟨budget.nodes + 1 + leaves.length, budget.entries + l.length + es.length⟩ :
            TraversalBudget) = ⟨budget.nodes + (leaves.length + 1),
              budget.entries + (l.length + es.length)⟩ := by
          simp only [Nat.add_assoc, Nat.add_comm 1]
        have hrest := ((@ih ⟨budget.nodes + 1, budget.entries + l.length⟩) hz'
          (by simp only; omega) (by simp only; omega)).2
          ⟨hd, by simp only; omega, by simp only; omega, hbudget⟩
        exact ⟨_, loadLeaf_eq_ok.2 ⟨hload, by omega, by omega, rfl⟩, _, hrest, rfl⟩
      | node hzero hload hd => exact absurd (hz leaf mem_cons_self) hzero

theorem loadNode_of_loadLeaves (h : loadLeaves hashBytes store leaves budget = .ok (es, budget')) :
    ∀ r ∈ leaves, ∃ l, loadNode hashBytes store r = .ok (.leaf l) := by
  induction leaves generalizing budget budget' es with
  | nil =>
    intro r hr
    cases hr
  | cons leaf leaves ih =>
    simp only [loadLeaves, bind_eq_ok] at h
    obtain ⟨⟨l, budget₁⟩, hl, ⟨rest, budget₂⟩, hrest, -⟩ := h
    intro r hr
    rcases mem_cons.1 hr with rfl | hr
    · exact ⟨l, (loadLeaf_eq_ok.1 hl).1⟩
    · exact ih hrest r hr

theorem collectLeafRefs_of_denotes (hshape : validateRootShape root = .ok ())
    (hd : Denotes hashBytes store root.child.toList ls es n) (hv : validateRanges ls 0 = .ok ())
    (hsum : sumFileCount ls = .ok root.totalFiles) (hn : n ≤ maxVisitedNodes) :
    collectLeafRefs hashBytes store root ⟨0, 0⟩ = .ok (ls, ⟨n, 0⟩) := by
  have hloop := @collectLoop_of_denotes _ _ _ _ _ _ (maxVisitedNodes + 1) ⟨0, 0⟩ [] hd (by omega) (by simpa using hn)
  simp only [nil_append, Nat.zero_add] at hloop
  simp only [collectLeafRefs, bind_eq_ok, exists_unit, pure_eq_ok, reject_eq_ok]
  exact ⟨hshape, _, hloop, hv, _, hsum, by simp, rfl⟩

theorem loadAllEntries_eq_ok : loadAllEntries hashBytes store root = .ok es ↔
    validateRootShape root = .ok () ∧ ∃ ls n, Denotes hashBytes store root.child.toList ls es n ∧
      validateRanges ls 0 = .ok () ∧ sumFileCount ls = .ok root.totalFiles ∧
      n + ls.length ≤ maxVisitedNodes ∧ validateEntries es = .ok () ∧
      UInt64.ofNat es.length = root.totalFiles := by
  simp only [loadAllEntries, loadLeafSpan, bind_eq_ok, exists_unit, pure_eq_ok, reject_eq_ok,
    forM_eq_ok, decide_eq_false_iff_not, not_not]
  constructor
  · rintro ⟨_, hcollect, _, ⟨-, ⟨es', budget'⟩, hleaves, hvalid, rfl⟩, htotal, rfl⟩
    simp only [collectLeafRefs, bind_eq_ok, exists_unit, pure_eq_ok, reject_eq_ok,
      decide_eq_false_iff_not, not_not] at hcollect
    obtain ⟨hshape, ⟨ls, budget⟩, hloop, hranges, total, hsum, rfl, rfl⟩ := hcollect
    have hz := fun r hr => ((validateRanges_eq_ok.1 hranges).1 r hr).1
    obtain ⟨ls', es₁, n, hd, rfl, hn, rfl⟩ :=
      denotes_of_collectLoop hloop (loadNode_of_loadLeaves hleaves) (Nat.zero_le _)
    obtain ⟨hd', hn', -, -⟩ := (loadLeaves_eq_ok hz hn (Nat.zero_le _)).1 hleaves
    obtain ⟨-, rfl, -⟩ := hd.leaves.unique hd'
    simp only [Nat.zero_add] at hn'
    exact ⟨hshape, _, n, hd, hranges, hsum, hn', hvalid, htotal⟩
  · rintro ⟨hshape, ls, n, hd, hranges, hsum, hn, hvalid, htotal⟩
    have hrange := (validateRanges_eq_ok.1 hranges).1
    have hz := fun r hr => (hrange r hr).1
    have hlen := (validateEntries_eq_ok.1 hvalid).1
    have hcollect := collectLeafRefs_of_denotes hshape hd hranges hsum (by omega)
    have hleaves := ((@loadLeaves_eq_ok _ _ _ ⟨n, 0⟩) hz (by simp only; omega) (Nat.zero_le _)).2
      ⟨hd.leaves, hn, by simpa using hlen, rfl⟩
    exact ⟨_, hcollect, _, ⟨fun r hr => (hrange r hr).symm, _, hleaves, hvalid, rfl⟩, htotal, rfl⟩

end Obsetync.TreeV2

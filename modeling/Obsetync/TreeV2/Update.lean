import Obsetync.TreeV2.Spans

namespace Obsetync.TreeV2
open Segmentation Fallible Keyed
open List hiding lookup lookup_append

variable {hashBytes : Bytes → FileHash} {store : ChunkStore}

def Stored (hashBytes : Bytes → FileHash) (store : ChunkStore) (ls : List (List FileEntry))
    (rs : List RangeRef) : Prop :=
  List.Forall₂ (fun l r => ∃ bytes, storeLeaf hashBytes l = .ok (r, bytes) ∧
    store.get (hashBytes bytes) = .ok bytes) ls rs

theorem stored_of_mapM (h : ls.mapM (storeLeaf hashBytes) = .ok leaves)
    (hstore : store.Holds hashBytes (leaves.map Prod.snd)) :
    Stored hashBytes store ls (leaves.map Prod.fst) := by
  have hall := mapM_eq_ok.1 h
  clear h
  induction hall with
  | nil => exact .nil
  | @cons l leaf ls leaves hl hrest ih =>
    refine .cons ⟨leaf.2, hl, hstore leaf.2 mem_cons_self⟩ (ih fun c hc => ?_)
    exact hstore c (mem_cons_of_mem _ hc)

theorem loadLeaf_stored (hl : storeLeaf hashBytes l = .ok (r, bytes))
    (hget : store.get (hashBytes bytes) = .ok bytes)
    (h : loadLeaf hashBytes store r budget = .ok (entries, budget')) : entries = l := by
  obtain ⟨henc, hne, hhash, -⟩ := storeLeaf_eq_ok hl
  simp only [loadLeaf, bind_eq_ok] at h
  obtain ⟨budget₁, -, node, hload, h⟩ := h
  obtain ⟨-, bytes', hget', -, -, hdec, -⟩ := decodeNode_of_loadNode hload
  rw [hhash, hget] at hget'
  cases hget'
  cases hdec.symm.trans (decodeNode_encodeLeaf hne henc)
  obtain ⟨budget₂, -, h⟩ := bind_eq_ok.1 h
  cases h
  rfl

theorem loadLeafSpan_stored (hs : Stored hashBytes store ls rs)
    (h : loadLeafSpan hashBytes store rs budget = .ok (entries, budget')) :
    entries = ls.flatten := by
  simp only [loadLeafSpan, bind_eq_ok, exists_unit, pure_eq_ok] at h
  obtain ⟨-, ⟨out, budget₁⟩, hload, -, heq⟩ := h
  cases heq
  induction hs generalizing budget out with
  | nil =>
    cases hload
    rfl
  | @cons l r ls rs hl hrest ih =>
    obtain ⟨bytes, hl, hget⟩ := hl
    simp only [loadLeaves, bind_eq_ok, pure_eq_ok] at hload
    obtain ⟨⟨first, budget₁⟩, hfirst, ⟨rest, budget₂⟩, hload, heq⟩ := hload
    cases heq
    rw [loadLeaf_stored hl hget hfirst, ih _ hload, flatten_cons]

theorem resyncLoop_spec (hs : Stored hashBytes store ls rest)
    (h : resyncLoop hashBytes store last rest entries budget leavesLoaded entriesLoaded =
      .ok resync) :
    ∃ k, resync.entries = entries ++ (ls.take k).flatten ∧ resync.rest = rest.drop k ∧
      segmentEntries resync.entries = .ok resync.segments ∧
      (ls.drop k = [] ∨ (leafRule.run [] resync.entries).2 = []) := by
  induction hs generalizing last entries budget leavesLoaded entriesLoaded with
  | nil =>
    simp only [resyncLoop, bind_eq_ok, pure_eq_ok] at h
    obtain ⟨segments, hseg, rfl⟩ := h
    exact ⟨0, (append_nil _).symm, rfl, hseg, .inl rfl⟩
  | @cons l r ls rest hl hrest ih =>
    simp only [resyncLoop, bind_eq_ok] at h
    obtain ⟨segments, hseg, h⟩ := h
    split_ifs at h with hr
    · cases h
      exact ⟨0, (append_nil _).symm, rfl, hseg, .inr (run_of_resynchronized hseg hr)⟩
    · obtain ⟨⟨appended, budget₁⟩, hload, h⟩ := bind_eq_ok.1 h
      have happ : appended = [l].flatten := loadLeafSpan_stored (.cons hl .nil) hload
      obtain ⟨k, hentries, hdrop, hsegs, hclosed⟩ := ih h
      refine ⟨k + 1, ?_, hdrop, hsegs, hclosed⟩
      rw [hentries, happ, append_assoc]
      simp

theorem operationPaths_le (h : (operationPaths changed deleted).head? = some first)
    (h' : (operationPaths changed deleted).getLast? = some last)
    (hp : p ∈ changed.map FileEntry.path ++ deleted) : first ≤ p ∧ p ≤ last := by
  have hsort : (operationPaths changed deleted).Pairwise fun a b => a ≤ b :=
    sortBy_pairwise
  have hp' : p ∈ operationPaths changed deleted := sortBy_perm.mem_iff.2 hp
  constructor
  · obtain ⟨ps, hps⟩ := head?_eq_some_iff.1 h
    rw [hps] at hsort hp'
    rcases mem_cons.1 hp' with rfl | hp'
    · exact le_refl _
    · exact (pairwise_cons.1 hsort).1 p hp'
  · obtain ⟨ps, hps⟩ := getLast?_eq_some_iff.1 h'
    rw [hps] at hsort hp'
    rcases mem_append.1 hp' with hp' | hp'
    · exact (pairwise_append.1 hsort).2.2 p hp' last mem_cons_self
    · exact (mem_singleton.1 hp').le

theorem lastEntry_of_not_mem (h : p ∉ changed.map FileEntry.path) : lastEntry changed p = none := by
  apply lastEntry_eq_none
  rintro e he rfl
  exact h (mem_map_of_mem he)

theorem mem_mergePrefixEntries (hs : Sorted FileEntry.path existing)
    (h : e ∈ mergePrefixEntries existing changed deleted) : e ∈ changed ∨ e ∈ existing := by
  obtain ⟨hsort, hlook⟩ := mergePrefixEntries_spec hs changed deleted
  have he := hsort.lookup_of_mem h
  rw [hlook, updatedAt] at he
  cases hl : lastEntry changed e.path with
  | some e' =>
    rw [hl] at he
    cases he
    exact .inl (mem_of_mem_filter (mem_of_getLast? hl))
  | none =>
    rw [hl, Option.none_or] at he
    split_ifs at he
    exact .inr (mem_of_lookup he).1

theorem mergePrefixEntries_middle {before middle after : List FileEntry}
    (hs : Sorted FileEntry.path (before ++ middle ++ after))
    (hb : ∀ e ∈ before, ∀ p ∈ changed.map FileEntry.path ++ deleted, e.path < p)
    (ha : ∀ e ∈ after, ∀ p ∈ changed.map FileEntry.path ++ deleted, p < e.path) :
    mergePrefixEntries (before ++ middle ++ after) changed deleted =
      before ++ mergePrefixEntries middle changed deleted ++ after := by
  obtain ⟨hbm, hafter, hlt⟩ := hs.of_append
  obtain ⟨hbefore, hmiddle, hlt'⟩ := hbm.of_append
  obtain ⟨hsort, hlook⟩ := mergePrefixEntries_spec hs changed deleted
  obtain ⟨hmsort, hmlook⟩ := mergePrefixEntries_spec hmiddle changed deleted
  have hpath {e : FileEntry} (he : e ∈ changed) : e.path ∈ changed.map FileEntry.path ++ deleted :=
    mem_append_left _ (mem_map_of_mem he)
  have hleft : Sorted FileEntry.path (before ++ mergePrefixEntries middle changed deleted) := by
    apply hbefore.append hmsort
    intro e he e' he'
    rcases mem_mergePrefixEntries hmiddle he' with hc | hm
    · exact hb e he e'.path (hpath hc)
    · exact hlt' e he e' hm
  apply hsort.ext
  · apply hleft.append hafter
    intro e he e' he'
    rcases mem_append.1 he with he | he
    · exact hlt e (mem_append_left _ he) e' he'
    · rcases mem_mergePrefixEntries hmiddle he with hc | hm
      · exact ha e' he' e.path (hpath hc)
      · exact hlt e (mem_append_right _ hm) e' he'
  · intro p
    rw [hlook, lookup_append, lookup_append, hmlook, updatedAt, updatedAt, lookup_append,
      lookup_append]
    by_cases hp : p ∈ changed.map FileEntry.path ++ deleted
    · have hnb : lookup FileEntry.path before p = none :=
        lookup_eq_none.2 fun e he => (hb e he p hp).ne
      have hna : lookup FileEntry.path after p = none :=
        lookup_eq_none.2 fun e he => (ha e he p hp).ne'
      rw [hnb, hna, Option.none_or, Option.or_none, Option.none_or, Option.or_none]
    · rw [mem_append, not_or] at hp
      rw [lastEntry_of_not_mem hp.1, if_neg hp.2, if_neg hp.2, Option.none_or, Option.none_or]

def leavesEndingBefore (leaves : List (List FileEntry)) (path : String) : Nat :=
  (leaves.takeWhile fun l => l.getLast?.any (·.path < path)).length

theorem leavesBefore_stored (hs : Stored hashBytes store ls rs) :
    leavesBefore rs path = leavesEndingBefore ls path := by
  rw [leavesBefore, leavesEndingBefore]
  induction hs with
  | nil => rfl
  | @cons l r ls rs hl hrest ih =>
    obtain ⟨bytes, hl, -⟩ := hl
    obtain ⟨-, -, -, -, hmax⟩ := storeLeaf_eq_ok hl
    obtain ⟨e, he, hpath⟩ := Option.map_eq_some_iff.1 hmax
    have hany : l.getLast?.any (·.path < path) = decide (r.maxPath < path) := by
      rw [he, ← hpath]
      rfl
    rw [takeWhile_cons, takeWhile_cons, hany]
    split_ifs
    · rw [length_cons, length_cons, ih]
    · rfl

theorem path_le_getLast (hs : Sorted FileEntry.path l) (he : e ∈ l) (hx : l.getLast? = some x) :
    e.path ≤ x.path := by
  obtain ⟨l', rfl⟩ := getLast?_eq_some_iff.1 hx
  rcases mem_append.1 he with he | he
  · exact (hs.of_append.2.2 e he x mem_cons_self).le
  · rw [mem_singleton.1 he]

theorem Sorted.of_mem_flatten {ls : List (List FileEntry)} (hs : Sorted FileEntry.path ls.flatten)
    (hl : l ∈ ls) : Sorted FileEntry.path l :=
  (pairwise_flatten.1 hs).1 l hl

theorem lt_of_mem_take {ls : List (List FileEntry)} (hs : Sorted FileEntry.path ls.flatten)
    (hn : n ≤ leavesEndingBefore ls path) (he : e ∈ (ls.take n).flatten) : e.path < path := by
  obtain ⟨l, hl, he⟩ := mem_flatten.1 he
  have hl' : l ∈ ls.takeWhile fun l => l.getLast?.any (·.path < path) := by
    have hpre := prefix_iff_eq_take.1 (List.takeWhile_prefix
      (fun l : List FileEntry => l.getLast?.any (·.path < path)) (l := ls))
    rw [hpre]
    exact take_subset_take_left ls hn hl
  have hany := mem_takeWhile_imp hl'
  obtain ⟨x, hx, hlt⟩ := (Option.any_eq_true _ _).1 hany
  have hsorted := Sorted.of_mem_flatten hs (mem_of_mem_take hl)
  exact lt_of_le_of_lt (path_le_getLast hsorted he hx) (of_decide_eq_true hlt)

theorem lt_of_mem_drop (hs : Sorted FileEntry.path ls.flatten) (hne : ∀ l ∈ ls, l ≠ [])
    (hn : min (leavesEndingBefore ls path) (ls.length - 1) ≤ n)
    (he : e ∈ (ls.drop (n + 1)).flatten) : path < e.path := by
  have hlen : n + 1 < ls.length := by
    by_contra hge
    rw [drop_eq_nil_of_le (not_lt.1 hge)] at he
    cases he
  have hsplit := takeWhile_append_dropWhile
    (p := fun l : List FileEntry => l.getLast?.any (·.path < path)) (l := ls)
  have hstop := head?_dropWhile_not (fun l : List FileEntry => l.getLast?.any (·.path < path)) ls
  cases hd : ls.dropWhile fun l => l.getLast?.any (·.path < path) with
  | nil =>
    rw [hd, append_nil] at hsplit
    rw [leavesEndingBefore, hsplit] at hn
    omega
  | cons l rest =>
    rw [hd] at hsplit hstop
    have hl : l ∈ ls := hsplit ▸ mem_append_right _ mem_cons_self
    have hx := getLast?_eq_some_getLast (hne l hl)
    generalize l.getLast (hne l hl) = x at hx
    simp only [head?_cons, hx, Option.any_some, decide_eq_false_iff_not, not_lt] at hstop
    have hq : leavesEndingBefore ls path < ls.length := by
      have := congrArg List.length hsplit
      rw [length_append, length_cons, ← leavesEndingBefore] at this
      omega
    have hmem : x ∈ (ls.take (n + 1)).flatten := by
      apply mem_flatten.2
      refine ⟨l, ?_, mem_of_getLast? hx⟩
      have hlt : l ∈ ls.take (leavesEndingBefore ls path + 1) := by
        rw [leavesEndingBefore]
        generalize ls.takeWhile _ = front at hsplit ⊢
        rw [← hsplit, take_length_add_append]
        simp
      exact take_subset_take_left ls (by omega) hlt
    rw [← take_append_drop (n + 1) ls, flatten_append] at hs
    exact lt_of_le_of_lt hstop (hs.of_append.2.2 x hmem e he)

/-- What `update_tree` builds its new leaves from: the leaves in front of the loaded span, the
cut of the replaced entries, and the leaves behind them. -/
theorem updateLeaves_spec (hs : Sorted FileEntry.path ls.flatten)
    (hst : Stored hashBytes store ls rs) (hne : ∀ l ∈ ls, l ≠ [])
    (hfirst : (operationPaths changed deleted).head? = some first)
    (hlast : (operationPaths changed deleted).getLast? = some last)
    (h : updateLeaves hashBytes store rs budget first last changed deleted =
      .ok (root, stats, chunks)) :
    ∃ s e entries leaves emitted nodes, s = min (leavesEndingBefore ls first) (ls.length - 1) ∧
      mergePrefixEntries ls.flatten changed deleted =
        (ls.take s).flatten ++ (entries ++ (ls.drop e).flatten) ∧
      (leafRule.cut [] entries).mapM (storeLeaf hashBytes) = .ok leaves ∧
      rootFromLeaves hashBytes (rs.take s ++ leaves.map Prod.fst ++ rs.drop e) =
        .ok (root, emitted, nodes) ∧
      leaves.map Prod.snd ++ nodes = chunks ∧
      (ls.drop e = [] ∨ (leafRule.run [] entries).2 = []) := by
  have hlen : rs.length = ls.length := hst.length_eq.symm
  rw [updateLeaves, leavesBefore_stored hst, leavesBefore_stored hst, hlen] at h
  generalize hsdef : min (leavesEndingBefore ls first) (ls.length - 1) = s at h ⊢
  generalize htdef : max (min (leavesEndingBefore ls last) (ls.length - 1)) s = t at h
  split at h
  · next lastRef rest hdrop =>
    simp only [bind_eq_ok, exists_unit, pure_eq_ok] at h
    obtain ⟨⟨loaded, budget₁⟩, hload, resync, hresync, leaves, hleaves, -,
      ⟨root', emitted, nodes⟩, hroot, heq⟩ := h
    cases heq
    have hloaded : loaded = ((ls.take (t + 1)).drop s).flatten :=
      loadLeafSpan_stored (forall₂_drop s (forall₂_take (t + 1) hst)) hload
    have hrs : rs.drop (t + 1) = rest := by
      have := congrArg (List.drop 1) hdrop
      rwa [drop_drop] at this
    have hrest : Stored hashBytes store (ls.drop (t + 1)) rest := hrs ▸ forall₂_drop (t + 1) hst
    obtain ⟨k, hentries, hdropk, hseg, hclosed⟩ := resyncLoop_spec hrest hresync
    rw [storeLeaves_eq hseg] at hleaves
    rw [drop_drop] at hclosed
    have hdrops : resync.rest = rs.drop (t + 1 + k) := by
      rw [hdropk, ← hrs, drop_drop]
    rw [hdrops] at hroot
    refine ⟨s, t + 1 + k, resync.entries, leaves, emitted, nodes, rfl, ?_, hleaves, hroot, rfl,
      hclosed⟩
    have hparts : ls.flatten =
        (ls.take s).flatten ++ ((ls.take (t + 1)).drop s).flatten ++ (ls.drop (t + 1)).flatten := by
      have hst' : s ≤ t + 1 := by omega
      rw [← flatten_append, ← flatten_append]
      congr 1
      conv_lhs => rw [← take_append_drop (t + 1) ls,
        ← take_append_drop s (ls.take (t + 1)), take_take, min_eq_left hst']
    have hmid := (@mergePrefixEntries_middle deleted changed) (hparts ▸ hs) ?_ ?_
    · rw [hparts, hmid, hentries, hloaded, append_assoc, append_assoc]
      congr 2
      rw [← flatten_append, ← drop_drop (i := k) (j := t + 1), take_append_drop]
    · intro e he p hp
      exact lt_of_lt_of_le (lt_of_mem_take hs (hsdef ▸ min_le_left _ _) he)
        (operationPaths_le hfirst hlast hp).1
    · intro e he p hp
      exact lt_of_le_of_lt (operationPaths_le hfirst hlast hp).2
        (lt_of_mem_drop hs hne (htdef ▸ le_max_left _ _) he)
  · cases h

end Obsetync.TreeV2

import Obsetync.TreeV2.Update

namespace Obsetync.TreeV2
open Segmentation Fallible Keyed List

variable {hashBytes : Bytes → FileHash}

def NoCollision (hashBytes : Bytes → FileHash) (chunks : List Bytes) : Prop :=
  ∀ a ∈ chunks, ∀ b ∈ chunks, hashBytes a = hashBytes b → a = b

def storeOf (hashBytes : Bytes → FileHash) (chunks : List Bytes) : ChunkStore where
  get hash := match chunks.find? (hashBytes · = hash) with
    | some chunk => .ok chunk
    | none => .error (.notFound hash)

theorem NoCollision.holds (h : NoCollision hashBytes chunks) :
    (storeOf hashBytes chunks).Holds hashBytes chunks := by
  intro c hc
  cases hf : chunks.find? (hashBytes · = hashBytes c) with
  | none =>
    have := find?_eq_none.1 hf c hc
    simp at this
  | some d =>
    have hd : hashBytes d = hashBytes c := by simpa using find?_some hf
    have hdc := h d (mem_of_find?_eq_some hf) c hc hd
    simp only [storeOf, hf, hdc]

theorem NoCollision.mono (h : NoCollision hashBytes chunks) (hs : chunks' ⊆ chunks) :
    NoCollision hashBytes chunks' :=
  fun a ha b hb => h a (hs ha) b (hs hb)

/-- The leaf in front of the first leaf an update loads still ends where it did: it ends by its own
records, or the record that follows it in the updated entries does not fit into it. -/
def BoundaryKept (entries changed : List FileEntry) (deleted : List String) : Prop :=
  let leaves := leafRule.cut [] (sortBy FileEntry.path entries)
  let updated := sortBy FileEntry.path (updatedEntries entries changed deleted)
  ∀ first ∈ (operationPaths changed deleted).head?, ∀ k,
    min (leavesEndingBefore leaves first) (leaves.length - 1) = k + 1 →
    ∀ l ∈ leaves[k]?, leafRule.Ends l (updated.drop (leaves.take (k + 1)).flatten.length)

theorem leaves_eq_of_refs {ls ls' : List (List FileEntry)}
    (h : ls.mapM (storeLeaf hashBytes) = .ok leaves)
    (h' : ls'.mapM (storeLeaf hashBytes) = .ok leaves')
    (hc : NoCollision hashBytes (leaves.map Prod.snd ++ leaves'.map Prod.snd))
    (heq : leaves.map Prod.fst = leaves'.map Prod.fst) : ls = ls' := by
  have hall := mapM_eq_ok.1 h
  have hall' := mapM_eq_ok.1 h'
  clear h h'
  induction hall generalizing ls' leaves' with
  | nil =>
    cases hall' with
    | nil => rfl
    | cons _ _ => cases heq
  | @cons l leaf ls leaves hl hrest ih =>
    cases hall' with
    | nil => cases heq
    | @cons l' leaf' ls' leaves' hl' hrest' =>
      obtain ⟨hhead, htail⟩ := List.cons.inj heq
      obtain ⟨r, bytes⟩ := leaf
      obtain ⟨r', bytes'⟩ := leaf'
      obtain ⟨henc, hne, hhash, -⟩ := storeLeaf_eq_ok hl
      obtain ⟨henc', hne', hhash', -⟩ := storeLeaf_eq_ok hl'
      have hrr : r = r' := hhead
      have hbytes : bytes = bytes' := by
        apply hc bytes (by simp) bytes' (by simp)
        rw [← hhash, ← hhash', hrr]
      have hdec := decodeNode_encodeLeaf hne henc
      rw [hbytes, decodeNode_encodeLeaf hne' henc'] at hdec
      cases hdec
      rw [ih (hc.mono ?_) htail hrest']
      intro c hc
      rcases mem_append.1 hc with hc | hc
      · exact mem_append_left _ (mem_cons_of_mem _ hc)
      · exact mem_append_right _ (mem_cons_of_mem _ hc)

theorem refs_eq_of_root (h : rootFromLeaves hashBytes rs = .ok (root, emitted, nodes))
    (h' : rootFromLeaves hashBytes rs' = .ok (root, emitted', nodes'))
    (hc : NoCollision hashBytes (nodes ++ nodes')) : rs = rs' := by
  have hholds := hc.holds
  have hs := rootFromLeaves_spans h fun c hm => hholds c (mem_append_left _ hm)
  have hs' := rootFromLeaves_spans h' fun c hm => hholds c (mem_append_right _ hm)
  exact hs.unique hs'

theorem mapM_take {ls : List (List FileEntry)} (h : ls.mapM (storeLeaf hashBytes) = .ok leaves)
    (n : Nat) : (ls.take n).mapM (storeLeaf hashBytes) = .ok (leaves.take n) :=
  mapM_eq_ok.2 (forall₂_take n (mapM_eq_ok.1 h))

theorem mapM_drop {ls : List (List FileEntry)} (h : ls.mapM (storeLeaf hashBytes) = .ok leaves)
    (n : Nat) : (ls.drop n).mapM (storeLeaf hashBytes) = .ok (leaves.drop n) :=
  mapM_eq_ok.2 (forall₂_drop n (mapM_eq_ok.1 h))

/-- The cut of the updated entries is the one `update_tree` assembles, exactly if the boundary in
front of the replaced span is kept. -/
theorem cut_updated_iff (hcut : leafRule.cut [] E = ls) (hs : s ≤ ls.length - 1)
    (hclosed : ls.drop e = [] ∨ (leafRule.run [] entries).2 = []) :
    leafRule.cut [] ((ls.take s).flatten ++ (entries ++ (ls.drop e).flatten)) =
        ls.take s ++ (leafRule.cut [] entries ++ ls.drop e) ↔
      ∀ k, s = k + 1 → ∀ l ∈ ls[k]?, leafRule.Ends l (entries ++ (ls.drop e).flatten) := by
  have hsuffix : leafRule.cut [] (ls.drop e).flatten = ls.drop e := by
    apply ((@Rule.cut_suffix _ (ls.take e) _ E) _).2
    rw [hcut, take_append_drop]
  have hrest : leafRule.cut [] (entries ++ (ls.drop e).flatten) =
      leafRule.cut [] entries ++ ls.drop e := by
    rw [Rule.cut_append_of_closed, hsuffix]
    rcases hclosed with hnil | hrun
    · exact .inr (by rw [hnil]; rfl)
    · exact .inl hrun
  rw [← hrest]
  cases s with
  | zero => simp
  | succ k =>
    have hlt : k < ls.length := by omega
    have htake : ls.take (k + 1) = ls.take k ++ [ls[k]] := by
      rw [take_add_one, getElem?_eq_getElem hlt]
      rfl
    have hsplit : ls = ls.take k ++ ls[k] :: ls.drop (k + 1) := by
      rw [← drop_eq_getElem_cons hlt, take_append_drop]
    rw [htake, flatten_append, flatten_singleton, append_assoc (ls.take k) [ls[k]],
      singleton_append, Rule.cut_replace (hcut.trans hsplit)]
    simp [hlt]

theorem buildTree_congr (h : sortBy FileEntry.path entries = sortBy FileEntry.path entries') :
    buildTree hashBytes entries = buildTree hashBytes entries' := by
  rw [buildTree, buildTree, h]

theorem updatedEntries_nil : updatedEntries entries [] [] = entries := by
  simp [updatedEntries]

theorem nodup_of_validateEntries (h : validateEntries (sortBy FileEntry.path entries) = .ok ()) :
    (entries.map FileEntry.path).Nodup := by
  have hs := (validateEntries_eq_ok.1 h).2.2
  apply ((@sortBy_perm _ _ _ FileEntry.path).map FileEntry.path).nodup_iff.1
  exact pairwise_map.2 (hs.imp fun hlt => hlt.ne)

theorem validatePath_of_mem_update (hE : validateEntries E = .ok ())
    (hc : ∀ e ∈ changed, validatePath e.path = .ok ())
    (hlen : (mergePrefixEntries E changed deleted).length ≤ maxLoadedEntries) :
    validateEntries (mergePrefixEntries E changed deleted) = .ok () := by
  obtain ⟨-, hpaths, hsort⟩ := validateEntries_eq_ok.1 hE
  refine validateEntries_eq_ok.2 ⟨hlen, ?_, (mergePrefixEntries_spec hsort changed deleted).1⟩
  intro e he
  rcases mem_mergePrefixEntries hsort he with hmem | hmem
  · exact hc e hmem
  · exact hpaths e hmem

theorem updateLeaves_eq_buildTree_iff {E changed : List FileEntry} (hE : validateEntries E = .ok ())
    (hold : (leafRule.cut [] E).mapM (storeLeaf hashBytes) = .ok old)
    (hstore : store.Holds hashBytes (old.map Prod.snd))
    (hc : ∀ e ∈ changed, validatePath e.path = .ok ())
    (hfirst : (operationPaths changed deleted).head? = some first)
    (hlast : (operationPaths changed deleted).getLast? = some last)
    (h : updateLeaves hashBytes store (old.map Prod.fst) budget first last changed deleted =
      .ok (root, stats, chunks))
    (hcoll : ∀ rebuilt chunks', buildTree hashBytes (mergePrefixEntries E changed deleted) =
      .ok (rebuilt, chunks') → NoCollision hashBytes (old.map Prod.snd ++ chunks ++ chunks')) :
    (∃ chunks', buildTree hashBytes (mergePrefixEntries E changed deleted) = .ok (root, chunks')) ↔
      (mergePrefixEntries E changed deleted).length ≤ maxLoadedEntries ∧
      ∀ k, min (leavesEndingBefore (leafRule.cut [] E) first) ((leafRule.cut [] E).length - 1) =
          k + 1 → ∀ l ∈ (leafRule.cut [] E)[k]?,
        leafRule.Ends l ((mergePrefixEntries E changed deleted).drop
          ((leafRule.cut [] E).take (k + 1)).flatten.length) := by
  have hsort := (validateEntries_eq_ok.1 hE).2.2
  have hfl : (leafRule.cut [] E).flatten = E := Rule.flatten_cut
  obtain ⟨s, e, entries, leaves, emitted, nodes, hs, hmerge, hleaves, hroot, rfl, hclosed⟩ :=
    updateLeaves_spec (hfl.symm ▸ hsort) (stored_of_mapM hold hstore)
      (fun l hl => Rule.ne_nil_of_mem_cut hl) hfirst hlast h
  rw [hfl] at hmerge
  have hiff := cut_updated_iff (s := s) rfl (hs ▸ min_le_right _ _) hclosed
  rw [← hmerge] at hiff
  have hdrop (k : Nat) (hk : s = k + 1) : (mergePrefixEntries E changed deleted).drop
      ((leafRule.cut [] E).take (k + 1)).flatten.length =
      entries ++ ((leafRule.cut [] E).drop e).flatten := by
    rw [hmerge, ← hk, drop_left]
  have hcond : (∀ k, s = k + 1 → ∀ l ∈ (leafRule.cut [] E)[k]?,
      leafRule.Ends l (entries ++ ((leafRule.cut [] E).drop e).flatten)) ↔
      ∀ k, s = k + 1 → ∀ l ∈ (leafRule.cut [] E)[k]?,
        leafRule.Ends l ((mergePrefixEntries E changed deleted).drop
          ((leafRule.cut [] E).take (k + 1)).flatten.length) := by
    constructor
    · intro hk k hsk
      rw [hdrop k hsk]
      exact hk k hsk
    · intro hk k hsk
      rw [← hdrop k hsk]
      exact hk k hsk
  rw [← hs, ← hcond, ← hiff]
  have hstored : ((leafRule.cut [] E).take s ++
      (leafRule.cut [] entries ++ (leafRule.cut [] E).drop e)).mapM (storeLeaf hashBytes) =
      .ok (old.take s ++ (leaves ++ old.drop e)) :=
    mapM_append_eq_ok.2 ⟨_, _, mapM_take hold s,
      mapM_append_eq_ok.2 ⟨_, _, hleaves, mapM_drop hold e, rfl⟩, rfl⟩
  have hrefs : (old.take s ++ (leaves ++ old.drop e)).map Prod.fst =
      (old.map Prod.fst).take s ++ leaves.map Prod.fst ++ (old.map Prod.fst).drop e := by
    simp
  have hself : sortBy FileEntry.path (mergePrefixEntries E changed deleted) =
      mergePrefixEntries E changed deleted :=
    (mergePrefixEntries_spec hsort changed deleted).1.sortBy_self
  constructor
  · rintro ⟨chunks', hb⟩
    have hno := hcoll root chunks' hb
    obtain ⟨hv, leaves', hleaves', emitted', nodes', hroot', rfl⟩ := buildTree_eq_ok.1 hb
    rw [hself] at hv hleaves'
    refine ⟨(validateEntries_eq_ok.1 hv).1, ?_⟩
    have heq : leaves'.map Prod.fst = (old.take s ++ (leaves ++ old.drop e)).map Prod.fst := by
      rw [hrefs]
      refine refs_eq_of_root hroot' hroot (hno.mono ?_)
      intro c hm
      rcases mem_append.1 hm with hm | hm
      · exact mem_append_right _ (mem_append_right _ hm)
      · exact mem_append_left _ (mem_append_right _ (mem_append_right _ hm))
    refine leaves_eq_of_refs hleaves' hstored (hno.mono ?_) heq
    intro c hm
    simp only [map_append, mem_append, map_take, map_drop] at hm ⊢
    rcases hm with hm | hm | hm | hm
    · exact .inr (.inl hm)
    · exact .inl (.inl (mem_of_mem_take hm))
    · exact .inl (.inr (.inl hm))
    · exact .inl (.inl (mem_of_mem_drop hm))
  · rintro ⟨hlen, hcut⟩
    refine ⟨_, buildTree_eq_ok.2 ⟨?_, old.take s ++ (leaves ++ old.drop e), ?_, emitted, nodes, ?_,
      rfl⟩⟩
    · rw [hself]
      exact validatePath_of_mem_update hE hc hlen
    · rw [hself, hcut]
      exact hstored
    · rw [hrefs]
      exact hroot

/-- An update of a built tree gives the root that a build of the updated entries gives, exactly if
the entries stay within the limit and the boundary in front of the replaced leaves is kept. -/
theorem updateTree_eq_buildTree_iff (hashBytes : Bytes → FileHash) (store : ChunkStore)
    (entries changed : List FileEntry) (deleted : List String) (root root' : TreeV2Root)
    (chunks chunks' : List Bytes) (stats : UpdateStats)
    (hbuild : buildTree hashBytes entries = .ok (root, chunks))
    (hstore : store.Holds hashBytes chunks)
    (hupdate : updateTree hashBytes store root changed deleted = .ok (root', stats, chunks'))
    (hcoll : ∀ rebuilt chunks'', buildTree hashBytes (updatedEntries entries changed deleted) =
      .ok (rebuilt, chunks'') → NoCollision hashBytes (chunks ++ chunks' ++ chunks'')) :
    (∃ chunks'', buildTree hashBytes (updatedEntries entries changed deleted) =
        .ok (root', chunks'')) ↔
      (updatedEntries entries changed deleted).length ≤ maxLoadedEntries ∧
        BoundaryKept entries changed deleted := by
  obtain ⟨hE, old, hold, emitted, nodes, hroot, rfl⟩ := buildTree_eq_ok.1 hbuild
  have hnodup := nodup_of_validateEntries hE
  have hU := sortBy_updatedEntries hnodup changed deleted
  have hlen : (updatedEntries entries changed deleted).length =
      (mergePrefixEntries (sortBy FileEntry.path entries) changed deleted).length := by
    rw [← hU]
    exact sortBy_perm.length_eq.symm
  have hmerged := (mergePrefixEntries_spec (sortBy_sorted hnodup) changed deleted).1
  have hbuildU : buildTree hashBytes (updatedEntries entries changed deleted) =
      buildTree hashBytes (mergePrefixEntries (sortBy FileEntry.path entries) changed deleted) :=
    buildTree_congr (hU.trans hmerged.sortBy_self.symm)
  simp only [updateTree, bind_eq_ok, exists_unit, forM_eq_ok] at hupdate
  obtain ⟨-, hc, -, hupdate⟩ := hupdate
  split at hupdate
  · next first last hfirst hlast =>
    obtain ⟨⟨leaves, budget⟩, hcollect, hupdate⟩ := bind_eq_ok.1 hupdate
    have hrefs : leaves = old.map Prod.fst :=
      (collectLeafRefs_spans hcollect).unique (rootFromLeaves_spans hroot fun c hm =>
        hstore c (mem_append_right _ hm))
    split_ifs at hupdate with hempty
    · have hold' : old = [] := by
        rw [hrefs] at hempty
        simpa using hempty
      have hcut : leafRule.cut [] (sortBy FileEntry.path entries) = [] := by
        have := (mapM_eq_ok.1 hold).length_eq
        rw [hold'] at this
        exact eq_nil_of_length_eq_zero this
      have hnil : sortBy FileEntry.path entries = [] := by
        have := @Rule.flatten_cut _ [] (sortBy FileEntry.path entries) leafRule
        rw [hcut] at this
        exact this.symm
      simp only [bind_eq_ok, pure_eq_ok] at hupdate
      obtain ⟨segments, -, ⟨next, nodes'⟩, hnext, heq⟩ := hupdate
      cases heq
      rw [hnil] at hbuildU hlen
      refine ⟨fun _ => ⟨?_, ?_⟩, fun _ => ⟨nodes', hbuildU.trans hnext⟩⟩
      · obtain ⟨hv, -⟩ := buildTree_eq_ok.1 hnext
        rw [hlen, ← (@sortBy_perm _ _ _ FileEntry.path).length_eq]
        exact (validateEntries_eq_ok.1 hv).1
      · intro first' _ k hk
        rw [hcut] at hk
        simp at hk
    · subst hrefs
      have hcore := updateLeaves_eq_buildTree_iff hE hold
        (fun c hm => hstore c (mem_append_left _ hm)) hc hfirst hlast hupdate ?_
      · rw [hbuildU, hcore, hlen, BoundaryKept, hU, hfirst]
        simp
      · intro rebuilt rechunks hre
        apply (hcoll rebuilt rechunks (hbuildU.trans hre)).mono
        intro c hm
        simp only [mem_append] at hm ⊢
        tauto
  · next hnone =>
    have hops : operationPaths changed deleted = [] := by
      cases hop : operationPaths changed deleted with
      | nil => rfl
      | cons p ps =>
        exact (hnone p ((p :: ps).getLast (cons_ne_nil _ _)) (by rw [hop]; rfl)
          (by rw [hop]; exact getLast?_eq_some_getLast _)).elim
    have hnil : changed.map FileEntry.path ++ deleted = [] := by
      have hp : (operationPaths changed deleted).Perm (changed.map FileEntry.path ++ deleted) :=
        sortBy_perm
      rw [hops] at hp
      exact hp.symm.eq_nil
    obtain ⟨hch, rfl⟩ := append_eq_nil_iff.1 hnil
    obtain rfl := map_eq_nil_iff.1 hch
    cases hupdate
    rw [updatedEntries_nil]
    refine ⟨fun _ => ⟨?_, ?_⟩, fun _ => ⟨_, hbuild⟩⟩
    · rw [← (@sortBy_perm _ _ _ FileEntry.path).length_eq]
      exact (validateEntries_eq_ok.1 hE).1
    · intro first hf
      rw [hops] at hf
      cases hf

def lengthHash (bytes : Bytes) : FileHash := ⟨Wire.leBytes 32 bytes.length, Wire.leBytes_length⟩

def repeated (c : Char) (n : Nat) : FileEntry :=
  ⟨String.ofList (List.replicate n c), lengthHash [], 0, 0⟩

def leafOf (entries : List FileEntry) : Bytes :=
  leafMagic ++ Wire.leBytes 4 entries.length ++ entries.flatMap encodeLeafRecord

def leafRoot (entries : List FileEntry) (minPath maxPath : String) : TreeV2Root :=
  ⟨treeVersion, UInt64.ofNat entries.length, some ⟨minPath, maxPath, lengthHash (leafOf entries),
    UInt64.ofNat entries.length, UInt32.ofNat (leafOf entries).length, 0⟩⟩

theorem updateTree_eq_buildTree_small : buildTree lengthHash [repeated 'a' 1] =
      .ok (leafRoot [repeated 'a' 1] "a" "a", [leafOf [repeated 'a' 1]]) ∧
    updateTree lengthHash (storeOf lengthHash [leafOf [repeated 'a' 1]])
        (leafRoot [repeated 'a' 1] "a" "a") [repeated 'b' 1] [] =
      .ok (leafRoot [repeated 'a' 1, repeated 'b' 1] "a" "b", ⟨1, 1, 1, 0, 1, true⟩,
        [leafOf [repeated 'a' 1, repeated 'b' 1]]) ∧
    ((∃ chunks, buildTree lengthHash (updatedEntries [repeated 'a' 1] [repeated 'b' 1] []) =
        .ok (leafRoot [repeated 'a' 1, repeated 'b' 1] "a" "b", chunks)) ↔
      (updatedEntries [repeated 'a' 1] [repeated 'b' 1] []).length ≤ maxLoadedEntries ∧
        BoundaryKept [repeated 'a' 1] [repeated 'b' 1] []) := by
  have hbuild : buildTree lengthHash [repeated 'a' 1] =
      .ok (leafRoot [repeated 'a' 1] "a" "a", [leafOf [repeated 'a' 1]]) := by decide +kernel
  have hupdate : updateTree lengthHash (storeOf lengthHash [leafOf [repeated 'a' 1]])
      (leafRoot [repeated 'a' 1] "a" "a") [repeated 'b' 1] [] =
      .ok (leafRoot [repeated 'a' 1, repeated 'b' 1] "a" "b", ⟨1, 1, 1, 0, 1, true⟩,
        [leafOf [repeated 'a' 1, repeated 'b' 1]]) := by decide +kernel
  have hrebuild : buildTree lengthHash (updatedEntries [repeated 'a' 1] [repeated 'b' 1] []) =
      .ok (leafRoot [repeated 'a' 1, repeated 'b' 1] "a" "b",
        [leafOf [repeated 'a' 1, repeated 'b' 1]]) := by decide +kernel
  refine ⟨hbuild, hupdate, updateTree_eq_buildTree_iff lengthHash _ _ _ _ _ _ _ _ _ hbuild ?_
    hupdate ?_⟩
  · intro c hc
    rw [mem_singleton.1 hc]
    decide +kernel
  · intro rebuilt chunks h
    rw [hrebuild] at h
    cases h
    unfold NoCollision
    decide +kernel

end Obsetync.TreeV2

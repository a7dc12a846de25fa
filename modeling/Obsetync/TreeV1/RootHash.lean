import Obsetync.TreeV1.Load

namespace Obsetync.TreeV1
open Keyed List

/-- The bytes that `RootNode::hash` hashes. -/
def rootInput (children : List (String × FileHash)) : Bytes :=
  children.flatMap fun child => asBytes child.1 ++ child.2.val

theorem RootNode.hash_eq (hashBytes : Bytes → FileHash) (root : RootNode) :
    root.hash hashBytes = hashBytes (rootInput root.children) :=
  rfl

/-- A directory name with its slash. -/
def Directory (pre : String) : Prop := ∃ name, '/' ∉ name ∧ pre = String.ofList (name ++ ['/'])

def Directories (children : List (String × FileHash)) : Prop :=
  ∀ child ∈ children, Directory child.1

/-- The first child holds the files at the top of the vault. -/
def HasTop (children : List (String × FileHash)) : Prop :=
  ∃ hash tail, children = ("", hash) :: tail ∧ Directories tail

/-- The children of a root: in prefix order, each prefix that of some path. -/
structure RootChildren where
  children : List (String × FileHash)
  sorted : Sorted Prod.fst children
  prefixes : ∀ child ∈ children, ∃ path, child.1 = topLevelPrefix path

theorem topLevelPrefix_cases (path : String) :
    topLevelPrefix path = "" ∨ Directory (topLevelPrefix path) := by
  rw [topLevelPrefix]
  split_ifs with h
  · right
    refine ⟨_, ?_, rfl⟩
    intro hmem
    simpa using mem_takeWhile_imp hmem
  · exact .inl rfl

theorem Directory.topLevelPrefix (h : Directory pre) : TreeV1.topLevelPrefix pre = pre := by
  obtain ⟨name, hname, rfl⟩ := h
  rw [TreeV1.topLevelPrefix, String.toList_ofList, if_pos (by simp), takeWhile_append_of_pos]
  · simp
  · intro c hc
    apply decide_eq_true
    rintro rfl
    exact hname hc

theorem Directory.empty_lt (h : Directory pre) : "" < pre := by
  obtain ⟨name, -, rfl⟩ := h
  have hlist : (String.ofList (name ++ ['/'])).toList = name ++ ['/'] := String.toList_ofList
  rw [String.lt_iff_toList_lt, hlist]
  cases name with
  | nil => exact nil_lt_cons '/' []
  | cons c name => exact nil_lt_cons c _

/-- What `build_tree` makes are the children of a root. -/
def builtChildren (codec : NodeCodec) (hashBytes : Bytes → FileHash) (nowMs : UInt64)
    (entries : List FileEntry) (vaultId deviceId : String) : RootChildren where
  children := (buildTree codec hashBytes nowMs entries vaultId deviceId).1.children
  sorted := by
    have hmap : (buildTree codec hashBytes nowMs entries vaultId deviceId).1.children.map Prod.fst =
        prefixes entries := by
      change ((builtGroups codec hashBytes entries).map _).map Prod.fst = _
      rw [builtGroups, List.map_map, List.map_map]
      exact List.map_id _
    have hsort := (distinct_spec (entries.map (topLevelPrefix ·.path))).1
    rw [← prefixes, ← hmap] at hsort
    exact List.pairwise_map.1 hsort
  prefixes := by
    intro child hchild
    obtain ⟨group, hgroup, rfl⟩ := List.mem_map.1 hchild
    obtain ⟨pre, hpre, rfl⟩ := List.mem_map.1 hgroup
    obtain ⟨e, -, rfl⟩ := List.mem_map.1 (((distinct_spec _).2 pre).1 hpre)
    exact ⟨e.path, rfl⟩

section Slash

def slash : UInt8 := 47

theorem mem_utf8EncodeChar (c : Char) : slash ∈ String.utf8EncodeChar c ↔ c = '/' := by
  constructor
  · intro h
    have h47 : UInt8.toNat 47 = 47 := rfl
    rw [slash, String.utf8EncodeChar] at h
    split_ifs at h with h1 h2 h3
    · have hval : c.val.toNat = 47 := by
        have := congrArg UInt8.toNat (mem_singleton.1 h)
        rw [UInt8.toNat_ofNat', Nat.mod_eq_of_lt (by omega)] at this
        exact this.symm
      apply Char.ext
      apply UInt32.toNat_inj.1
      exact hval
    all_goals
      simp only [mem_cons, not_mem_nil, or_false, ← UInt8.toNat_inj, UInt8.toNat_ofNat', h47] at h
      omega
  · rintro rfl
    decide

theorem slash_mem_asBytes (cs : List Char) : slash ∈ asBytes (String.ofList cs) ↔ '/' ∈ cs := by
  rw [asBytes_ofList, mem_flatMap]
  constructor
  · rintro ⟨c, hc, hmem⟩
    rwa [(mem_utf8EncodeChar c).1 hmem] at hc
  · intro h
    exact ⟨'/', h, (mem_utf8EncodeChar '/').2 rfl⟩

theorem asBytes_directory :
    asBytes (String.ofList (name ++ ['/'])) = asBytes (String.ofList name) ++ [slash] := by
  rw [asBytes_ofList, flatMap_append, ← asBytes_ofList]
  rfl

end Slash

section Reading

/-- A child in a directory, read from the front of the bytes: the name up to the first slash and
the hash. -/
def cutChild (bytes : Bytes) : Option ((String × FileHash) × Bytes) :=
  match bytes.dropWhile (· ≠ slash) with
  | [] => none
  | _ :: rest =>
    if h : 32 ≤ rest.length then
      (fromUtf8 (bytes.takeWhile (· ≠ slash))).map fun name =>
        ((String.ofList (name.toList ++ ['/']), ⟨rest.take 32, List.length_take_of_le h⟩),
          rest.drop 32)
    else none

def readChildren : Nat → Bytes → Option (List (String × FileHash))
  | _, [] => some []
  | 0, _ :: _ => none
  | fuel + 1, bytes => do
    let (child, rest) ← cutChild bytes
    return child :: (← readChildren fuel rest)

variable {bytes rest : Bytes} {child : String × FileHash} {children : List (String × FileHash)}

theorem cutChild_append (h : Directory child.1) :
    cutChild (asBytes child.1 ++ child.2.val ++ rest) = some (child, rest) := by
  obtain ⟨pre, hash⟩ := child
  obtain ⟨name, hname, rfl⟩ := h
  have hno : ∀ b ∈ asBytes (String.ofList name), decide (b ≠ slash) = true := by
    intro b hb
    apply decide_eq_true
    rintro rfl
    exact hname ((slash_mem_asBytes name).1 hb)
  have hbytes : asBytes (String.ofList (name ++ ['/'])) ++ hash.val ++ rest =
      asBytes (String.ofList name) ++ slash :: (hash.val ++ rest) := by
    rw [asBytes_directory, append_assoc, append_assoc]
    rfl
  have hlen : 32 ≤ (hash.val ++ rest).length := by
    rw [length_append, hash.property]
    exact Nat.le_add_right _ _
  simp only [cutChild, hbytes]
  rw [dropWhile_append_of_pos hno, takeWhile_append_of_pos hno,
    dropWhile_cons_of_neg (by simp), takeWhile_cons_of_neg (by simp), append_nil]
  simp only [fromUtf8_asBytes, dif_pos hlen, Option.map_some, String.toList_ofList]
  have htake : (hash.val ++ rest).take 32 = hash.val := take_left' hash.property
  have hdrop : (hash.val ++ rest).drop 32 = rest := drop_left' hash.property
  simp only [htake, hdrop]

theorem cutChild_eq_some (h : cutChild bytes = some (child, rest)) :
    bytes = asBytes child.1 ++ child.2.val ++ rest ∧ Directory child.1 := by
  rw [cutChild] at h
  split at h
  · cases h
  · next b after hdrop =>
    split_ifs at h with hlen
    obtain ⟨name, hname, hpair⟩ := Option.map_eq_some_iff.1 h
    cases hpair
    have hslash : b = slash := by
      have := head?_dropWhile_not (p := fun b => decide (b ≠ slash)) (l := bytes)
      rw [hdrop] at this
      simpa using this
    subst hslash
    have hbytes := asBytes_fromUtf8 hname
    constructor
    · rw [asBytes_directory, String.ofList_toList, hbytes, append_assoc, append_assoc,
        take_append_drop, singleton_append, ← hdrop, takeWhile_append_dropWhile]
    · refine ⟨_, ?_, rfl⟩
      rw [← slash_mem_asBytes, String.ofList_toList, hbytes]
      intro hmem
      simpa using mem_takeWhile_imp hmem

theorem rootInput_cons :
    rootInput (child :: children) = asBytes child.1 ++ child.2.val ++ rootInput children :=
  flatMap_cons

theorem hash_length_le (hash : FileHash) (pre rest : Bytes) :
    32 ≤ (pre ++ hash.val ++ rest).length := by
  rw [length_append, length_append, hash.property]
  omega

theorem readChildren_eq_some (hfuel : bytes.length ≤ fuel) :
    readChildren fuel bytes = some children ↔
      rootInput children = bytes ∧ Directories children := by
  constructor
  · intro h
    induction fuel generalizing bytes children with
    | zero =>
      obtain rfl := length_eq_zero_iff.1 (Nat.le_zero.1 hfuel)
      cases h
      exact ⟨rfl, fun child hc => (not_mem_nil hc).elim⟩
    | succ fuel ih =>
      cases bytes with
      | nil =>
        cases h
        exact ⟨rfl, fun child hc => (not_mem_nil hc).elim⟩
      | cons b bytes =>
        rw [readChildren] at h
        · obtain ⟨⟨child, rest⟩, hread, h⟩ := Option.bind_eq_some_iff.1 h
          obtain ⟨tail, htail, h⟩ := Option.bind_eq_some_iff.1 h
          obtain rfl := Option.some.inj h
          obtain ⟨hbytes, hdir⟩ := cutChild_eq_some hread
          have hshort : rest.length ≤ fuel := by
            have := congrArg List.length hbytes
            rw [length_append, length_append, child.2.property] at this
            omega
          obtain ⟨hinput, hdirs⟩ := ih hshort htail
          rw [rootInput_cons, hinput, hbytes]
          exact ⟨rfl, forall_mem_cons.2 ⟨hdir, hdirs⟩⟩
        · intro h
          cases h
  · rintro ⟨rfl, hdir⟩
    induction children generalizing fuel with
    | nil => cases fuel <;> rfl
    | cons child children ih =>
      obtain ⟨hchild, htail⟩ := forall_mem_cons.1 hdir
      rw [rootInput_cons] at hfuel ⊢
      have hlen := hash_length_le child.2 (asBytes child.1) (rootInput children)
      obtain ⟨fuel, rfl⟩ : ∃ k, fuel = k + 1 := Nat.exists_eq_add_one.2 (by omega)
      rw [readChildren, cutChild_append hchild]
      · change (readChildren fuel (rootInput children) >>= _) = _
        rw [ih htail]
        · rfl
        · rw [length_append, length_append, child.2.property] at hfuel
          omega
      · intro hnil
        rw [hnil] at hlen
        cases hlen

theorem rootInput_inj (hdir : Directories children) (hdir' : Directories children')
    (h : rootInput children = rootInput children') : children = children' := by
  have hread := (readChildren_eq_some (le_refl _)).2 ⟨h, hdir⟩
  rw [(readChildren_eq_some (le_refl _)).2 ⟨rfl, hdir'⟩] at hread
  exact (Option.some.inj hread).symm

end Reading

variable {children : List (String × FileHash)}

theorem RootChildren.shape (root : RootChildren) :
    HasTop root.children ∨ Directories root.children := by
  obtain ⟨children, hsort, hpre⟩ := root
  have hdir : ∀ child ∈ children, child.1 = "" ∨ Directory child.1 := by
    intro child hc
    obtain ⟨path, hpath⟩ := hpre child hc
    rw [hpath]
    exact topLevelPrefix_cases path
  cases children with
  | nil => exact .inr fun child hc => (not_mem_nil hc).elim
  | cons first tail =>
    obtain ⟨hlt, -⟩ := pairwise_cons.1 hsort
    have htail : Directories tail := by
      intro child hc
      rcases hdir child (mem_cons_of_mem _ hc) with hnil | hchild
      · have habsurd := hlt child hc
        rw [hnil, String.lt_iff_toList_lt] at habsurd
        exact (not_lt_nil _ habsurd).elim
      · exact hchild
    rcases hdir first mem_cons_self with hnil | hfirst
    · left
      exact ⟨first.2, tail, by rw [← hnil], htail⟩
    · right
      exact forall_mem_cons.2 ⟨hfirst, htail⟩

theorem HasTop.not_directories (h : HasTop children) : ¬ Directories children := by
  obtain ⟨hash, tail, rfl, -⟩ := h
  intro hdir
  exact absurd (hdir _ mem_cons_self).empty_lt (lt_irrefl _)

theorem exists_path_of_shape (h : HasTop children ∨ Directories children) :
    ∀ child ∈ children, ∃ path, child.1 = topLevelPrefix path := by
  have hdirs {l : List (String × FileHash)} (hl : Directories l) :
      ∀ child ∈ l, ∃ path, child.1 = topLevelPrefix path := by
    intro child hc
    exact ⟨child.1, (hl child hc).topLevelPrefix.symm⟩
  rcases h with ⟨hash, tail, rfl, htail⟩ | h
  · exact forall_mem_cons.2 ⟨⟨"", rfl⟩, hdirs htail⟩
  · exact hdirs h

theorem rootInput_inj_of_top (h : HasTop children) (h' : HasTop children')
    (hinput : rootInput children = rootInput children') : children = children' := by
  obtain ⟨hash, tail, rfl, htail⟩ := h
  obtain ⟨hash', tail', rfl, htail'⟩ := h'
  have hbytes : hash.val ++ rootInput tail = hash'.val ++ rootInput tail' := hinput
  obtain ⟨hhash, hrest⟩ := append_inj hbytes (hash.property.trans hash'.property.symm)
  rw [Subtype.ext hhash, rootInput_inj htail htail' hrest]

/-- The other way to split the hashed bytes of a root: without the files at the top of the vault
when it has some, and with some when it has none. -/
def otherReading (children : List (String × FileHash)) : Option (List (String × FileHash)) :=
  let bytes := rootInput children
  match children with
  | ("", _) :: _ => readChildren bytes.length bytes
  | _ =>
    if h : 32 ≤ bytes.length then
      (readChildren bytes.length (bytes.drop 32)).map
        (("", ⟨bytes.take 32, List.length_take_of_le h⟩) :: ·)
    else none

theorem otherReading_of_top (h : HasTop children) : otherReading children = some other ↔
      rootInput other = rootInput children ∧ Directories other := by
  obtain ⟨hash, tail, rfl, -⟩ := h
  exact readChildren_eq_some (le_refl _)

theorem otherReading_of_directories (hdir : Directories children) :
    otherReading children = some other ↔ rootInput other = rootInput children ∧ HasTop other := by
  have hdrop : ((rootInput children).drop 32).length ≤ (rootInput children).length := by
    rw [length_drop]
    exact Nat.sub_le _ _
  rw [otherReading]
  · constructor
    · intro h
      split_ifs at h with hlen
      obtain ⟨tail, htail, rfl⟩ := Option.map_eq_some_iff.1 h
      obtain ⟨hinput, hdirs⟩ := (readChildren_eq_some hdrop).1 htail
      refine ⟨?_, _, tail, rfl, hdirs⟩
      rw [rootInput_cons, hinput]
      exact take_append_drop 32 _
    · rintro ⟨hinput, hash, tail, rfl, hdirs⟩
      have hbytes : rootInput children = hash.val ++ rootInput tail := hinput.symm
      have hlen : 32 ≤ (rootInput children).length := by
        rw [hbytes]
        exact hash_length_le hash [] _
      have htail : rootInput tail = (rootInput children).drop 32 := by
        rw [hbytes, drop_left' hash.property]
      have hhash : (rootInput children).take 32 = hash.val := by
        rw [hbytes, take_left' hash.property]
      rw [dif_pos hlen, (readChildren_eq_some hdrop).2 ⟨htail, hdirs⟩]
      simp only [Option.map_some, hhash]
  · rintro hash tail rfl
    exact absurd (hdir _ mem_cons_self).empty_lt (lt_irrefl _)

/-- A root is the only one with its hashed bytes exactly when their other reading gives no sorted
children. -/
theorem rootInput_unique_iff (root : RootChildren) :
    (∀ root' : RootChildren, rootInput root'.children = rootInput root.children →
        root'.children = root.children) ↔
      ∀ other, otherReading root.children = some other → ¬ Sorted Prod.fst other := by
  constructor
  · intro hunique other hother hsort
    have hsame (hinput : rootInput other = rootInput root.children)
        (hshape : HasTop other ∨ Directories other) : other = root.children :=
      hunique ⟨other, hsort, exists_path_of_shape hshape⟩ hinput
    rcases root.shape with htop | hdir
    · obtain ⟨hinput, hdirs⟩ := (otherReading_of_top htop).1 hother
      rw [← hsame hinput (.inr hdirs)] at htop
      exact htop.not_directories hdirs
    · obtain ⟨hinput, htop⟩ := (otherReading_of_directories hdir).1 hother
      rw [← hsame hinput (.inl htop)] at hdir
      exact htop.not_directories hdir
  · intro hno root' hinput
    rcases root.shape with htop | hdir <;> rcases root'.shape with htop' | hdir'
    · exact rootInput_inj_of_top htop' htop hinput
    · exact absurd root'.sorted (hno _ ((otherReading_of_top htop).2 ⟨hinput, hdir'⟩))
    · exact absurd root'.sorted (hno _ ((otherReading_of_directories hdir).2 ⟨hinput, htop'⟩))
    · exact rootInput_inj hdir' hdir hinput

def xHash : FileHash := ⟨List.replicate 32 120, List.length_replicate⟩

def topAndB : RootChildren where
  children := [("", xHash), ("b/", xHash)]
  sorted := by
    apply List.pairwise_pair.2
    decide
  prefixes := by
    apply exists_path_of_shape
    exact .inl ⟨_, _, rfl, List.forall_mem_singleton.2 ⟨['b'], by decide, rfl⟩⟩

def longDirectory : RootChildren where
  children := [(String.ofList (List.replicate 32 'x' ++ ['b', '/']), xHash)]
  sorted := List.pairwise_singleton _ _
  prefixes := by
    apply exists_path_of_shape
    exact .inr (List.forall_mem_singleton.2 ⟨List.replicate 32 'x' ++ ['b'], by decide, by simp⟩)

/-- Two different roots are hashed from the same bytes. -/
theorem rootInput_not_injective : rootInput topAndB.children = rootInput longDirectory.children ∧
      topAndB.children ≠ longDirectory.children ∧
      ∀ (hashBytes : Bytes → FileHash) (root root' : RootNode),
        root.children = topAndB.children → root'.children = longDirectory.children →
          root.hash hashBytes = root'.hash hashBytes := by
  have hinput : rootInput topAndB.children = rootInput longDirectory.children := by decide +kernel
  refine ⟨hinput, by decide +kernel, ?_⟩
  intro hashBytes root root' h h'
  rw [RootNode.hash_eq, RootNode.hash_eq, h, h', hinput]

end Obsetync.TreeV1

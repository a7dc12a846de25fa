import Obsetync.Text
import Obsetync.Keyed

namespace Obsetync
open Keyed
open List hiding lookup lookup_append lookup_cons zip

/-- `[u8; 32]`. -/
abbrev FileHash := {b : Bytes // b.length = 32}

theorem length_repeated (b : UInt8) : (replicate 32 b).length = 32 := length_replicate

theorem length_zeros : (replicate 32 (0 : UInt8)).length = 32 := length_replicate

structure FileEntry where
  path : String
  hash : FileHash
  mtimeMs : UInt64
  sizeBytes : UInt64
  deriving DecidableEq

inductive ChunkError
  | deserialize (message : String)
  | notFound (hash : FileHash)
  | io (message : String)
  deriving DecidableEq

/-- The reads of a `ChunkStore`. The functions that write return the chunks they put, in order;
each is put under its own hash. -/
structure ChunkStore where
  get : FileHash → Except ChunkError Bytes

def ChunkStore.Holds (hashBytes : Bytes → FileHash) (store : ChunkStore) (chunks : List Bytes) :
    Prop :=
  ∀ c ∈ chunks, store.get (hashBytes c) = .ok c

/-- Whether some two neighbours satisfy `p` (`windows(2).any`). -/
def anyPair (p : α → α → Bool) : List α → Bool
  | a :: b :: l => p a b || anyPair p (b :: l)
  | _ => false

theorem anyPair_eq_false : anyPair p l = false ↔ l.IsChain fun a b => p a b = false := by
  induction l with
  | nil => simp [anyPair]
  | cons a l ih =>
    cases l with
    | nil => simp [anyPair]
    | cons b l => rw [anyPair, Bool.or_eq_false_iff, ih, isChain_cons_cons]

inductive FinalPathState
  | upsert (entry : FileEntry)
  | delete (path : String)
  deriving DecidableEq

def FinalPathState.path : FinalPathState → String
  | .upsert entry => entry.path
  | .delete path => path

def keepLast : List FileEntry → List FileEntry
  | a :: b :: l => if a.path = b.path then keepLast (b :: l) else a :: keepLast (b :: l)
  | l => l

/-- `Vec::dedup`. -/
def dedup : List String → List String
  | a :: b :: l => if a = b then dedup (b :: l) else a :: dedup (b :: l)
  | l => l

def normalizeUpserts (upserts : List FileEntry) : List FileEntry :=
  keepLast (if anyPair (fun a b => b.path < a.path) upserts then sortBy FileEntry.path upserts
    else upserts)

def normalizeDeletions (deletions : List String) : List String :=
  dedup (if anyPair (fun a b => b < a) deletions then sortBy id deletions else deletions)

def finalState : Option FileEntry → Option String → Option FinalPathState
  | some upsert, _ => some (.upsert upsert)
  | none, some deletion => some (.delete deletion)
  | none, none => none

def applyState : Option FileEntry → Option FinalPathState → Option FileEntry
  | _, some (.upsert entry) => some entry
  | _, some (.delete _) => none
  | entry, none => entry

def finalStates (upserts : List FileEntry) (deletions : List String) : List FinalPathState :=
  zip FileEntry.path id finalState (normalizeUpserts upserts) (normalizeDeletions deletions)

def mergePrefixEntries (existing upserts : List FileEntry) (deletions : List String) :
    List FileEntry :=
  zip FileEntry.path FinalPathState.path applyState existing (finalStates upserts deletions)

def lastEntry (entries : List FileEntry) (path : String) : Option FileEntry :=
  (entries.filter (·.path = path)).getLast?

theorem pairwise_of_anyPair [LinearOrder κ] {key : α → κ}
    (h : anyPair (fun a b => key b < key a) l = false) : l.Pairwise fun a b => key a ≤ key b := by
  rw [anyPair_eq_false] at h
  have : IsTrans α fun a b => key a ≤ key b := ⟨fun _ _ _ => le_trans⟩
  apply List.IsChain.pairwise
  apply h.imp
  intro a b hab
  simpa using hab

theorem lastEntry_cons (a : FileEntry) :
    lastEntry (a :: l) p = (lastEntry l p).or (if a.path = p then some a else none) := by
  rw [lastEntry, filter_cons, lastEntry]
  by_cases hp : a.path = p
  · rw [if_pos (by simpa using hp), if_pos hp, getLast?_cons]
    cases (l.filter fun e => e.path = p).getLast? <;> rfl
  · rw [if_neg (by simpa using hp), if_neg hp, Option.or_none]

theorem lastEntry_eq_none (h : ∀ e ∈ l, e.path ≠ p) : lastEntry l p = none := by
  rw [lastEntry, filter_eq_nil_iff.2 (by simpa using h)]
  rfl

theorem keepLast_spec (h : l.Pairwise fun a b => a.path ≤ b.path) :
    (∀ e ∈ keepLast l, e ∈ l) ∧ Sorted FileEntry.path (keepLast l) ∧
      ∀ p, lookup FileEntry.path (keepLast l) p = lastEntry l p := by
  induction l with
  | nil => exact ⟨by simp [keepLast], List.Pairwise.nil, fun p => rfl⟩
  | cons a l ih =>
    obtain ⟨ha, hl⟩ := pairwise_cons.1 h
    obtain ⟨hmem, hsort, hlook⟩ := ih hl
    cases l with
    | nil =>
      refine ⟨by simp [keepLast], pairwise_singleton _ _, fun p => ?_⟩
      by_cases hp : a.path = p <;> simp [keepLast, lastEntry, lookup_cons, hp]
    | cons b l =>
      rw [keepLast]
      split_ifs with hab
      · refine ⟨fun e he => mem_cons_of_mem _ (hmem e he), hsort, fun p => ?_⟩
        rw [hlook, lastEntry_cons a]
        split_ifs with hp
        · have hb : b ∈ (b :: l).filter fun e => e.path = p := by
            simp [← hp, hab]
          rw [lastEntry, getLast?_eq_some_getLast (ne_nil_of_mem hb)]
          rfl
        · rw [Option.or_none]
      · have hlt : ∀ e ∈ keepLast (b :: l), a.path < e.path := by
          intro e he
          have hbe : b.path ≤ e.path := by
            rcases mem_cons.1 (hmem e he) with rfl | he
            · exact le_refl _
            · exact (pairwise_cons.1 hl).1 e he
          exact lt_of_lt_of_le (lt_of_le_of_ne (ha b mem_cons_self) hab) hbe
        refine ⟨?_, hsort.cons hlt, fun p => ?_⟩
        · intro e he
          rcases mem_cons.1 he with rfl | he
          · exact mem_cons_self
          · exact mem_cons_of_mem _ (hmem e he)
        · rw [lookup_cons, hlook, lastEntry_cons a]
          split_ifs with hp
          · have hnone : lastEntry (b :: l) p = none := by
              rw [← hlook, lookup_eq_none]
              intro e he
              exact hp ▸ (hlt e he).ne'
            rw [hnone]
            rfl
          · rw [Option.or_none]

theorem dedup_spec (h : l.Pairwise fun a b => a ≤ b) :
    Sorted id (dedup l) ∧ ∀ p, p ∈ dedup l ↔ p ∈ l := by
  induction l with
  | nil => exact ⟨List.Pairwise.nil, fun p => Iff.rfl⟩
  | cons a l ih =>
    obtain ⟨ha, hl⟩ := pairwise_cons.1 h
    obtain ⟨hsort, hmem⟩ := ih hl
    cases l with
    | nil => exact ⟨pairwise_singleton _ _, fun p => Iff.rfl⟩
    | cons b l =>
      rw [dedup]
      split_ifs with hab
      · refine ⟨hsort, fun p => ?_⟩
        rw [hmem, hab]
        simp
      · refine ⟨hsort.cons fun p hp => ?_, fun p => ?_⟩
        · have hbp : b ≤ p := by
            rcases mem_cons.1 ((hmem p).1 hp) with rfl | hp
            · exact le_refl _
            · exact (pairwise_cons.1 hl).1 p hp
          exact lt_of_lt_of_le (lt_of_le_of_ne (ha b mem_cons_self) hab) hbp
        · rw [mem_cons, hmem, mem_cons (a := p) (b := a)]

theorem normalizeUpserts_spec (upserts : List FileEntry) :
    Sorted FileEntry.path (normalizeUpserts upserts) ∧
      ∀ p, lookup FileEntry.path (normalizeUpserts upserts) p = lastEntry upserts p := by
  rw [normalizeUpserts]
  split_ifs with h
  · obtain ⟨-, hsort, hlook⟩ := keepLast_spec (sortBy_pairwise (l := upserts))
    refine ⟨hsort, fun p => ?_⟩
    rw [hlook, lastEntry, filter_sortBy, lastEntry]
  · obtain ⟨-, hsort, hlook⟩ := keepLast_spec (pairwise_of_anyPair (Bool.eq_false_iff.2 h))
    exact ⟨hsort, hlook⟩

theorem normalizeDeletions_spec (deletions : List String) :
    Sorted id (normalizeDeletions deletions) ∧
      ∀ p, p ∈ normalizeDeletions deletions ↔ p ∈ deletions := by
  rw [normalizeDeletions]
  split_ifs with h
  · obtain ⟨hsort, hmem⟩ := dedup_spec (@sortBy_pairwise _ _ _ id (l := deletions))
    refine ⟨hsort, fun p => ?_⟩
    rw [hmem]
    exact sortBy_perm.mem_iff
  · exact dedup_spec (pairwise_of_anyPair (Bool.eq_false_iff.2 h))

theorem finalState_keepsKey : KeepsKey FileEntry.path id FinalPathState.path finalState := by
  intro x y c k hx hy h
  cases x with
  | some entry =>
    cases h
    exact hx entry rfl
  | none =>
    cases y with
    | none => cases h
    | some path =>
      cases h
      exact hy path rfl

theorem applyState_keepsKey :
    KeepsKey FileEntry.path FinalPathState.path FileEntry.path applyState := by
  intro x y c k hx hy h
  cases y with
  | none => exact hx c h
  | some state =>
    cases state with
    | upsert entry =>
      cases h
      exact hy (.upsert c) rfl
    | delete path => cases h

theorem lookup_id {l : List String} : lookup id l p = if p ∈ l then some p else none := by
  split_ifs with h
  · cases hl : lookup id l p with
    | none => exact absurd rfl (lookup_eq_none.1 hl p h)
    | some q => exact congrArg some (mem_of_lookup hl).2
  · rw [lookup_eq_none]
    rintro q hq rfl
    exact h hq

def updatedAt (existing upserts : List FileEntry) (deletions : List String) (path : String) :
    Option FileEntry :=
  (lastEntry upserts path).or
    (if path ∈ deletions then none else lookup FileEntry.path existing path)

theorem mergePrefixEntries_spec (h : Sorted FileEntry.path existing) (upserts : List FileEntry)
    (deletions : List String) :
    Sorted FileEntry.path (mergePrefixEntries existing upserts deletions) ∧
      ∀ p, lookup FileEntry.path (mergePrefixEntries existing upserts deletions) p =
        updatedAt existing upserts deletions p := by
  obtain ⟨hu, hul⟩ := normalizeUpserts_spec upserts
  obtain ⟨hd, hdm⟩ := normalizeDeletions_spec deletions
  obtain ⟨hs, hsl⟩ := zip_spec finalState_keepsKey rfl hu hd
  obtain ⟨hm, hml⟩ := zip_spec applyState_keepsKey rfl h hs
  refine ⟨hm, fun p => ?_⟩
  rw [mergePrefixEntries, finalStates, hml, hsl, hul, lookup_id, updatedAt]
  simp only [hdm]
  cases lastEntry upserts p with
  | some entry => rfl
  | none =>
    by_cases hp : p ∈ deletions
    · simp [hp, finalState, applyState]
    · simp [hp, finalState, applyState]

def putEntry (entries : List FileEntry) (entry : FileEntry) : List FileEntry :=
  entries.filter (·.path ≠ entry.path) ++ [entry]

/-- The entries without the deleted paths, then the changed entries put in one after the other. -/
def updatedEntries (existing changed : List FileEntry) (deleted : List String) : List FileEntry :=
  changed.foldl putEntry (existing.filter (·.path ∉ deleted))

theorem putEntry_spec (h : (entries.map FileEntry.path).Nodup) (entry : FileEntry) :
    ((putEntry entries entry).map FileEntry.path).Nodup ∧
      ∀ p, lookup FileEntry.path (putEntry entries entry) p =
        if entry.path = p then some entry else lookup FileEntry.path entries p := by
  constructor
  · rw [putEntry, map_append, nodup_append]
    refine ⟨h.sublist (filter_sublist.map _), nodup_singleton _, ?_⟩
    intro p hp q hq
    obtain ⟨e, he, rfl⟩ := mem_map.1 hp
    rw [mem_singleton.1 hq]
    simpa using (mem_filter.1 he).2
  · intro p
    rw [putEntry, lookup_append, lookup_filter_key fun q => q ≠ entry.path, lookup_cons]
    by_cases hp : entry.path = p
    · simp [hp]
    · simp [hp, Ne.symm hp]

theorem foldl_putEntry_spec (changed : List FileEntry) (h : (entries.map FileEntry.path).Nodup) :
    ((changed.foldl putEntry entries).map FileEntry.path).Nodup ∧
      ∀ p, lookup FileEntry.path (changed.foldl putEntry entries) p =
        (lastEntry changed p).or (lookup FileEntry.path entries p) := by
  induction changed generalizing entries with
  | nil => exact ⟨h, fun p => rfl⟩
  | cons c changed ih =>
    obtain ⟨hn, hl⟩ := putEntry_spec h c
    obtain ⟨hn', hl'⟩ := ih hn
    refine ⟨hn', fun p => ?_⟩
    rw [foldl_cons, hl', hl, lastEntry_cons, Option.or_assoc]
    split_ifs
    · rfl
    · rfl

theorem updatedEntries_spec (h : (existing.map FileEntry.path).Nodup) (changed : List FileEntry)
    (deleted : List String) : ((updatedEntries existing changed deleted).map FileEntry.path).Nodup ∧
      ∀ p, lookup FileEntry.path (updatedEntries existing changed deleted) p =
        updatedAt existing changed deleted p := by
  obtain ⟨hn, hl⟩ := foldl_putEntry_spec changed (h.sublist (filter_sublist.map _))
  refine ⟨hn, fun p => ?_⟩
  rw [updatedEntries, hl, lookup_filter_key fun q => q ∉ deleted, updatedAt]
  by_cases hp : p ∈ deleted
  · simp [hp]
  · simp [hp]

theorem sortBy_updatedEntries (h : (existing.map FileEntry.path).Nodup) (changed : List FileEntry)
    (deleted : List String) : sortBy FileEntry.path (updatedEntries existing changed deleted) =
      mergePrefixEntries (sortBy FileEntry.path existing) changed deleted := by
  obtain ⟨hn, hl⟩ := updatedEntries_spec h changed deleted
  obtain ⟨hs, hm⟩ := mergePrefixEntries_spec (sortBy_sorted h) changed deleted
  apply (sortBy_sorted hn).ext hs
  intro p
  rw [lookup_sortBy, hl, hm, updatedAt, updatedAt, lookup_sortBy]

/-- The map that loses the deleted paths and then takes the changed entries in their order. -/
def updatedMap (existing changed : List FileEntry) (deleted : List String) :
    String → Option FileEntry :=
  changed.foldl (fun map entry => Function.update map entry.path (some entry)) fun path =>
    if path ∈ deleted then none else lookup FileEntry.path existing path

theorem foldl_update {map} : List.foldl (fun (map : String → Option FileEntry) entry =>
      Function.update map entry.path (some entry)) map changed path = (lastEntry changed path).or (map path) := by
  induction changed generalizing map with
  | nil => rfl
  | cons entry changed ih =>
    rw [foldl_cons, ih, lastEntry_cons, Option.or_assoc, Function.update_apply]
    by_cases hpath : entry.path = path
    · rw [if_pos hpath, if_pos hpath.symm, Option.some_or]
    · rw [if_neg hpath, if_neg (Ne.symm hpath), Option.none_or]

/-- The merge is the strictly sorted list of the updated map. -/
theorem mergePrefixEntries_eq_map (existing changed : List FileEntry) (deleted : List String)
    (h : Sorted FileEntry.path existing) :
    Sorted FileEntry.path (mergePrefixEntries existing changed deleted) ∧
      ∀ path, lookup FileEntry.path (mergePrefixEntries existing changed deleted) path =
        updatedMap existing changed deleted path := by
  obtain ⟨hsorted, hlookup⟩ := mergePrefixEntries_spec h changed deleted
  refine ⟨hsorted, fun path => ?_⟩
  rw [hlookup, updatedMap, foldl_update]
  rfl

theorem mergePrefixEntries_eq_map_overlap :
    let entry (path : String) (size : UInt64) : FileEntry :=
      ⟨path, ⟨List.replicate 32 0, rfl⟩, size, 0⟩
    let merged := mergePrefixEntries [entry "a" 0, entry "b" 0] [entry "b" 1, entry "b" 2]
      ["b", "a", "b"]
    Sorted FileEntry.path merged ∧ lookup FileEntry.path merged "b" = some (entry "b" 2) := by
  intro entry merged
  have hsorted : Sorted FileEntry.path [entry "a" 0, entry "b" 0] :=
    pairwise_pair.2 (by decide)
  obtain ⟨hs, hl⟩ := mergePrefixEntries_eq_map _ [entry "b" 1, entry "b" 2] ["b", "a", "b"] hsorted
  exact ⟨hs, (hl "b").trans rfl⟩

end Obsetync

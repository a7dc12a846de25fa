import Obsetync.Pull.Paged

namespace Obsetync.Pull
open SyncBase DiffPage List

def assign [DecidableEq α] (view : α → β) (pairs : List (α × β)) : α → β :=
  pairs.foldl (fun view pair => Function.update view pair.1 pair.2) view

section
variable [DecidableEq α] {view view' : α → β} {pairs : List (α × β)} {k : α} {v : β}

theorem assign_of_not_mem (h : k ∉ pairs.map Prod.fst) : assign view pairs k = view k := by
  induction pairs generalizing view with
  | nil => rfl
  | cons pair pairs ih =>
    rw [map_cons, mem_cons, not_or] at h
    rw [assign, foldl_cons, ← assign, ih h.2, Function.update_of_ne h.1]

theorem assign_of_mem (hnodup : (pairs.map Prod.fst).Nodup) (h : (k, v) ∈ pairs) :
    assign view pairs k = v := by
  induction pairs generalizing view with
  | nil => cases h
  | cons pair pairs ih =>
    obtain ⟨hfresh, hnodup⟩ := nodup_cons.1 hnodup
    rw [assign, foldl_cons, ← assign]
    rcases mem_cons.1 h with rfl | h
    · rw [assign_of_not_mem hfresh, Function.update_self]
    · exact ih hnodup h

theorem assign_append_eq {first second : List (α × β)} (hnodup : ((first ++ second).map Prod.fst).Nodup)
    (hdone : ∀ pair ∈ first, view pair.1 = pair.2)
    (hrest : ∀ k ∉ (first ++ second).map Prod.fst, view k = view' k) :
    assign view second = assign view' (first ++ second) := by
  funext k
  by_cases hk : k ∈ (first ++ second).map Prod.fst
  · obtain ⟨⟨k, v⟩, hpair, rfl⟩ := mem_map.1 hk
    rw [assign_of_mem hnodup hpair]
    rcases mem_append.1 hpair with hfirst | hsecond
    · have hnot : k ∉ second.map Prod.fst := by
        rw [map_append, nodup_append] at hnodup
        exact fun h => hnodup.2.2 k (mem_map_of_mem hfirst) k h rfl
      rw [assign_of_not_mem hnot]
      exact hdone _ hfirst
    · rw [map_append, nodup_append] at hnodup
      exact assign_of_mem hnodup.2.1 hsecond
  · rw [assign_of_not_mem hk, assign_of_not_mem, hrest k hk]
    rw [map_append, mem_append, not_or] at hk
    exact hk.2

end

def hashes (entries : String → Option BaseEntry) (path : String) : Option String :=
  (entries path).map BaseEntry.hash

def keptAssignments : FileDelta → List (String × Option String)
  | .added path hash _ _ => [(path, some (hexEncode hash.val))]
  | .modified path hash _ _ => [(path, some (hexEncode hash.val))]
  | .deleted path _ => [(path, none)]
  | .renamed path oldPath hash _ _ => [(path, some (hexEncode hash.val)), (oldPath, none)]

def assignments (isIgnored : String → Bool) (delta : FileDelta) : List (String × Option String) :=
  match scope isIgnored delta with
  | .kept kept => keptAssignments kept
  | .ignoredDelete path => [(path, none)]
  | .ignoredUpsert path => path.toList.map fun path => (path, none)

def finish (isIgnored : String → Bool) (view : String → Option String) (records : List FileDelta) :
    String → Option String :=
  assign view (records.flatMap (assignments isIgnored))

/-- The entries show a record: its content under its path, a path that it takes away without an
entry. The old path of a rename out of the ignored files is not taken away. -/
def Reflects (isIgnored : String → Bool) (entries : String → Option BaseEntry) : FileDelta → Prop
  | .added path hash _ _ => hashes entries path = some (hexEncode hash.val)
  | .modified path hash _ _ => hashes entries path = some (hexEncode hash.val)
  | .deleted path _ => entries path = none
  | .renamed path oldPath hash _ _ => hashes entries path = some (hexEncode hash.val) ∧
    (isIgnored oldPath = false → entries oldPath = none)

def Done (isIgnored : String → Bool) (entries : String → Option BaseEntry) (delta : FileDelta) :
    Prop :=
  ∀ pair ∈ assignments isIgnored delta, hashes entries pair.1 = pair.2

def omitted (isIgnored : String → Bool) (delta : FileDelta) : Bool := (scope isIgnored delta).omitted

section
variable {isIgnored : String → Bool} {entries : String → Option BaseEntry} {delta : FileDelta}

theorem hashes_eq_none (h : hashes entries path = none) : entries path = none :=
  Option.map_eq_none_iff.1 h

theorem Done.reflects (h : Done isIgnored entries delta) (hkept : omitted isIgnored delta = false) :
    Reflects isIgnored entries delta := by
  rw [omitted] at hkept
  rw [Done, assignments] at h
  cases delta with
  | added path hash size mtimeMs =>
    rw [scope] at h hkept
    split_ifs at h hkept with hi
    · cases hkept
    · exact h _ mem_cons_self
  | modified path hash size mtimeMs =>
    rw [scope] at h hkept
    split_ifs at h hkept with hi
    · cases hkept
    · exact h _ mem_cons_self
  | deleted path hash =>
    rw [scope] at h
    split_ifs at h with hi
    · exact hashes_eq_none (h _ mem_cons_self)
    · exact hashes_eq_none (h _ mem_cons_self)
  | renamed path oldPath hash size mtimeMs =>
    rw [scope] at h hkept
    split_ifs at h hkept with hi hold
    · cases hkept
    · exact ⟨h _ mem_cons_self, fun hfalse => absurd hold (by simp [hfalse])⟩
    · exact ⟨h _ mem_cons_self, fun _ => hashes_eq_none (h _ (mem_cons_of_mem _ mem_cons_self))⟩

theorem keys_sublist_touched (isIgnored : String → Bool) (delta : FileDelta) :
    ((assignments isIgnored delta).map Prod.fst).Sublist (touched delta) := by
  rw [assignments]
  cases delta with
  | added path hash size mtimeMs =>
    rw [scope]
    split_ifs
    · exact nil_sublist _
    · exact List.Sublist.refl _
  | modified path hash size mtimeMs =>
    rw [scope]
    split_ifs
    · exact nil_sublist _
    · exact List.Sublist.refl _
  | deleted path hash =>
    rw [scope]
    split_ifs <;> exact List.Sublist.refl _
  | renamed path oldPath hash size mtimeMs =>
    rw [scope]
    split_ifs
    · exact sublist_cons_self _ _
    · exact sublist_append_left [path] [oldPath]
    · exact List.Sublist.refl _

theorem keys_nodup (isIgnored : String → Bool) (diff : Diff) :
    ((diff.records.flatMap (assignments isIgnored)).map Prod.fst).Nodup := by
  have hsub (records : List FileDelta) : ((records.flatMap (assignments isIgnored)).map
      Prod.fst).Sublist (records.flatMap touched) := by
    induction records with
    | nil => exact List.Sublist.refl _
    | cons delta records ih =>
      rw [flatMap_cons, flatMap_cons, map_append]
      exact (keys_sublist_touched isIgnored delta).append ih
  exact (hsub diff.records).nodup diff.separate

end

def assignmentOf : Setter → Option (String × Option String)
  | .setEntry path hash _ _ _ => some (path, some hash)
  | .removeEntry path => some (path, none)
  | _ => none

section
variable {env : Env} {call : Setter} {pair : String × Option String} {state : BaseState}

theorem apply_entries (h : assignmentOf call = some pair) :
    hashes (call.apply env state).entries pair.1 = pair.2 ∧
      (∀ path, path ≠ pair.1 → (call.apply env state).entries path = state.entries path) ∧
      (call.apply env state).data = state.data := by
  cases call with
  | setEntry path hash mtime size treeMtime =>
    obtain rfl := Option.some.inj h
    refine ⟨?_, fun q hq => Function.update_of_ne hq _ _, rfl⟩
    change (Function.update state.entries path _ path).map BaseEntry.hash = _
    rw [Function.update_self]
    rfl
  | removeEntry path =>
    obtain rfl := Option.some.inj h
    refine ⟨?_, fun q hq => Function.update_of_ne hq _ _, rfl⟩
    change (Function.update state.entries path _ path).map BaseEntry.hash = _
    rw [Function.update_self]
    rfl
  | _ => cases h

theorem Done.assign {diff : Diff} (hdone : Done isIgnored state.entries delta)
    (hmem : delta ∈ diff.records) (h : assignmentOf call = some pair)
    (hpair : pair ∈ diff.records.flatMap (assignments isIgnored)) :
    Done isIgnored (call.apply env state).entries delta := by
  obtain ⟨hself, hother, -⟩ := apply_entries h
  intro other hmemo
  by_cases hkey : other.1 = pair.1
  · have hin : other ∈ diff.records.flatMap (assignments isIgnored) :=
      mem_flatMap.2 ⟨delta, hmem, hmemo⟩
    have hsame : other = pair :=
      inj_on_of_nodup_map (keys_nodup isIgnored diff) hin hpair hkey
    rw [hsame]
    exact hself
  · rw [hashes, hother other.1 hkey]
    exact hdone other hmemo

end

end Obsetync.Pull

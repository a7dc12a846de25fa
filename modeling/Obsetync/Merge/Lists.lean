import Obsetync.Entry

namespace Obsetync
open Keyed
open List hiding lookup

structure FileConflict where
  path : String
  baseHash : FileHash
  sideAHash : FileHash
  sideBHash : FileHash
  deriving DecidableEq

/-- A file both sides changed, left to the text merge. -/
structure TextMergeTodo where
  path : String
  baseHash : FileHash
  a : FileEntry
  b : FileEntry
  deriving DecidableEq

def TextMergeTodo.conflict (todo : TextMergeTodo) : FileConflict :=
  ⟨todo.path, todo.baseHash, todo.a.hash, todo.b.hash⟩

/-- What the walks of a merge push. -/
structure MergeState where
  merged : List FileEntry
  conflicts : List FileConflict
  autoResolved : Nat
  textTodo : List TextMergeTodo
  deriving DecidableEq

namespace MergeState

def empty : MergeState := ⟨[], [], 0, []⟩

def keep (entry : FileEntry) : MergeState := ⟨[entry], [], 0, []⟩

def pick (entries : List FileEntry) : MergeState := ⟨entries, [], 1, []⟩

def append (s t : MergeState) : MergeState :=
  ⟨s.merged ++ t.merged, s.conflicts ++ t.conflicts, s.autoResolved + t.autoResolved,
    s.textTodo ++ t.textTodo⟩

instance : Append MergeState := ⟨append⟩

@[simp] theorem merged_append (s t : MergeState) : (s ++ t).merged = s.merged ++ t.merged := rfl

@[simp] theorem conflicts_append (s t : MergeState) :
    (s ++ t).conflicts = s.conflicts ++ t.conflicts := rfl

@[simp] theorem textTodo_append (s t : MergeState) : (s ++ t).textTodo = s.textTodo ++ t.textTodo :=
  rfl

end MergeState

def zeroHash : FileHash := ⟨List.replicate 32 0, by simp⟩

/-- One turn of the walk over three sorted path lists: the least head, and which lists move. -/
def nextPath : Option String → Option String → Option String → Option (String × Bool × Bool × Bool)
  | none, none, none => none
  | some a, none, none => some (a, true, false, false)
  | none, some b, none => some (b, false, true, false)
  | none, none, some c => some (c, false, false, true)
  | some a, some b, none =>
    if a ≤ b then some (a, true, a = b, false) else some (b, false, true, false)
  | some a, none, some c =>
    if a ≤ c then some (a, true, false, a = c) else some (c, false, false, true)
  | none, some b, some c =>
    if b ≤ c then some (b, false, true, b = c) else some (c, false, false, true)
  | some a, some b, some c =>
    let min3 := min (min a b) c
    some (min3, a = min3, b = min3, c = min3)

def advance (moves : Bool) (l : List String) : List String := if moves then l.tail else l

/-- The loop that collects the paths of the three lists. Every turn moves a list, so the total
length is enough fuel. -/
def pathsLoop : Nat → List String → List String → List String → List String → List String
  | 0, _, _, _, paths => paths
  | fuel + 1, as, bs, cs, paths =>
    match nextPath as.head? bs.head? cs.head? with
    | none => paths
    | some (least, moveA, moveB, moveC) =>
      pathsLoop fuel (advance moveA as) (advance moveB bs) (advance moveC cs)
        (if paths.getLast? = some least then paths else paths ++ [least])

def unionPaths (base a b : List FileEntry) : List String :=
  pathsLoop (a.length + b.length + base.length) (a.map FileEntry.path) (b.map FileEntry.path)
    (base.map FileEntry.path) []

/-- What `merge_entry_lists` pushes for one path. -/
def mergePath (path : String) : Option FileEntry → Option FileEntry → Option FileEntry → MergeState
  | some base, some a, some b =>
    if a.hash = base.hash ∧ b.hash = base.hash then .keep base
    else if b.hash = base.hash then .pick [a]
    else if a.hash = base.hash then .pick [b]
    else if a.hash = b.hash then .pick [a]
    else ⟨[a], [], 0, [⟨path, base.hash, a, b⟩]⟩
  | none, some a, none => .pick [a]
  | none, none, some b => .pick [b]
  | none, some a, some b =>
    ⟨[a], if a.hash ≠ b.hash then [⟨path, zeroHash, a.hash, b.hash⟩] else [], 0, []⟩
  | some base, none, some b => if b.hash = base.hash then .empty else .pick [b]
  | some base, some a, none => if a.hash = base.hash then .empty else .pick [a]
  | _, none, none => .empty

def mergeEntryLists (base a b : List FileEntry) : MergeState :=
  (unionPaths base a b).foldl (fun state path =>
    state ++ mergePath path (latest FileEntry.path base path) (latest FileEntry.path a path)
      (latest FileEntry.path b path)) .empty

theorem nextPath_eq_none : nextPath a b c = none ↔ a = none ∧ b = none ∧ c = none := by
  cases a <;> cases b <;> cases c <;> simp [nextPath] <;> split_ifs <;> simp

theorem nextPath_spec (h : nextPath a b c = some (m, x, y, z)) :
    (x = true ↔ a = some m) ∧ (y = true ↔ b = some m) ∧ (z = true ↔ c = some m) ∧
      (∀ p ∈ a, m ≤ p) ∧ (∀ p ∈ b, m ≤ p) ∧ (∀ p ∈ c, m ≤ p) ∧ (x || y || z) = true := by
  cases a <;> cases b <;> cases c <;> simp only [nextPath] at h
  case some.some.some a b c =>
    cases h
    have hleast : a = min (min a b) c ∨ b = min (min a b) c ∨ c = min (min a b) c := by
      rcases min_choice (min a b) c with hc | hc
      · rw [hc]
        exact (min_choice a b).imp Eq.symm fun hb => .inl hb.symm
      · exact .inr (.inr hc.symm)
    simp only [decide_eq_true_eq, Option.some.injEq, Option.mem_def, forall_eq', Bool.or_eq_true]
    exact ⟨trivial, trivial, trivial, (min_le_left _ _).trans (min_le_left _ _),
      (min_le_left _ _).trans (min_le_right _ _), min_le_right _ _, or_assoc.2 hleast⟩
  all_goals grind

theorem advance_spec (hs : Sorted id l) (hx : x = true ↔ l.head? = some m)
    (hle : ∀ p ∈ l.head?, m ≤ p) : Sorted id (advance x l) ∧ (∀ p ∈ advance x l, m < p) ∧
      (∀ p, p ∈ l ↔ x = true ∧ p = m ∨ p ∈ advance x l) ∧
      (advance x l).length + x.toNat = l.length := by
  cases l with
  | nil =>
    have hx : x = false := by simpa using hx
    subst hx
    simp [advance, hs]
  | cons p l =>
    obtain ⟨hp, hl⟩ := pairwise_cons.1 hs
    simp only [head?_cons, Option.some.injEq, Option.mem_def, forall_eq'] at hx hle
    cases x with
    | false =>
      have hlt : m < p := lt_of_le_of_ne hle fun h => by simp [h] at hx
      refine ⟨hs, ?_, by simp [advance], rfl⟩
      intro q hq
      rcases mem_cons.1 hq with rfl | hq
      · exact hlt
      · exact hlt.trans (hp q hq)
    | true =>
      obtain rfl := hx.1 rfl
      refine ⟨hl, hp, ?_, rfl⟩
      simp [advance]

theorem pathsLoop_spec (ha : Sorted id as) (hb : Sorted id bs) (hc : Sorted id cs)
    (hp : Sorted id paths) (hlt : ∀ q ∈ paths, ∀ p, p ∈ as ∨ p ∈ bs ∨ p ∈ cs → q < p)
    (hfuel : as.length + bs.length + cs.length ≤ fuel) : Sorted id (pathsLoop fuel as bs cs paths) ∧
      ∀ p, p ∈ pathsLoop fuel as bs cs paths ↔ p ∈ paths ∨ p ∈ as ∨ p ∈ bs ∨ p ∈ cs := by
  induction fuel generalizing as bs cs paths with
  | zero =>
    obtain ⟨rfl, rfl, rfl⟩ : as = [] ∧ bs = [] ∧ cs = [] := by
      simp only [Nat.le_zero, Nat.add_eq_zero_iff, length_eq_zero_iff] at hfuel
      exact ⟨hfuel.1.1, hfuel.1.2, hfuel.2⟩
    simp [pathsLoop, hp]
  | succ fuel ih =>
    rw [pathsLoop]
    split
    · next hnone =>
      simp only [nextPath_eq_none, head?_eq_none_iff] at hnone
      obtain ⟨rfl, rfl, rfl⟩ := hnone
      simp [hp]
    · next m x y z hsome =>
      obtain ⟨hx, hy, hz, hma, hmb, hmc, hmove⟩ := nextPath_spec hsome
      obtain ⟨ha', hla, hmema, hlena⟩ := advance_spec ha hx hma
      obtain ⟨hb', hlb, hmemb, hlenb⟩ := advance_spec hb hy hmb
      obtain ⟨hc', hlc, hmemc, hlenc⟩ := advance_spec hc hz hmc
      have hm : m ∈ as ∨ m ∈ bs ∨ m ∈ cs := by
        rw [hmema, hmemb, hmemc]
        simp only [Bool.or_eq_true] at hmove
        rcases hmove with (hmove | hmove) | hmove
        · exact .inl (.inl ⟨hmove, rfl⟩)
        · exact .inr (.inl (.inl ⟨hmove, rfl⟩))
        · exact .inr (.inr (.inl ⟨hmove, rfl⟩))
      have hlast : paths.getLast? ≠ some m := fun h =>
        lt_irrefl m (hlt m (mem_of_getLast? h) m hm)
      have hpaths : Sorted id (paths ++ [m]) := by
        apply hp.append (pairwise_singleton _ _)
        intro q hq p hmem
        rw [mem_singleton.1 hmem]
        exact hlt q hq m hm
      have hrest : ∀ p, p ∈ advance x as ∨ p ∈ advance y bs ∨ p ∈ advance z cs → m < p := by
        rintro p (h | h | h)
        · exact hla p h
        · exact hlb p h
        · exact hlc p h
      have hlt' : ∀ q ∈ paths ++ [m], ∀ p,
          p ∈ advance x as ∨ p ∈ advance y bs ∨ p ∈ advance z cs → q < p := by
        intro q hq p h
        rcases mem_append.1 hq with hq | hq
        · exact (hlt q hq m hm).trans (hrest p h)
        · rw [mem_singleton.1 hq]
          exact hrest p h
      have hlen : (advance x as).length + (advance y bs).length + (advance z cs).length ≤ fuel := by
        have hpos : 0 < x.toNat + y.toNat + z.toNat := by
          revert hmove
          cases x <;> cases y <;> cases z <;> decide
        omega
      rw [if_neg hlast]
      obtain ⟨hsort, hmem⟩ := ih ha' hb' hc' hpaths hlt' hlen
      refine ⟨hsort, fun p => ?_⟩
      rw [hmem, mem_append, mem_singleton, hmema p, hmemb p, hmemc p]
      constructor
      · rintro ((h | rfl) | h | h | h)
        · exact .inl h
        · rw [hmema, hmemb, hmemc] at hm
          exact .inr hm
        · exact .inr (.inl (.inr h))
        · exact .inr (.inr (.inl (.inr h)))
        · exact .inr (.inr (.inr (.inr h)))
      · rintro (h | (⟨-, h⟩ | h) | (⟨-, h⟩ | h) | (⟨-, h⟩ | h))
        · exact .inl (.inl h)
        · exact .inl (.inr h)
        · exact .inr (.inl h)
        · exact .inl (.inr h)
        · exact .inr (.inr (.inl h))
        · exact .inl (.inr h)
        · exact .inr (.inr (.inr h))

theorem unionPaths_spec (hbase : Sorted FileEntry.path base) (ha : Sorted FileEntry.path a)
    (hb : Sorted FileEntry.path b) :
    Sorted id (unionPaths base a b) ∧ ∀ p, p ∈ unionPaths base a b ↔
      p ∈ a.map FileEntry.path ∨ p ∈ b.map FileEntry.path ∨ p ∈ base.map FileEntry.path := by
  have h := @pathsLoop_spec _ _ _ _ (a.length + b.length + base.length) (pairwise_map.2 ha) (pairwise_map.2 hb) (pairwise_map.2 hbase) List.Pairwise.nil (by simp) (by simp)
  simpa [unionPaths] using h

def mergedAt (base a b : Option FileEntry) : Option FileEntry := (mergePath "" base a b).merged.head?

def conflictAt (path : String) (base a b : Option FileEntry) : Option FileConflict :=
  (mergePath path base a b).conflicts.head?

def todoAt (path : String) (base a b : Option FileEntry) : Option TextMergeTodo :=
  (mergePath path base a b).textTodo.head?

theorem mergePath_eq : (mergePath path base a b).merged = (mergedAt base a b).toList ∧
      (mergePath path base a b).conflicts = (conflictAt path base a b).toList ∧
      (mergePath path base a b).textTodo = (todoAt path base a b).toList := by
  cases base <;> cases a <;> cases b <;> simp only [mergedAt, conflictAt, todoAt, mergePath] <;>
    repeat' split
  all_goals exact ⟨rfl, rfl, rfl⟩

theorem foldl_append_eq {f : String → MergeState} {ps : List String} {s : MergeState} :
    (ps.foldl (fun s p => s ++ f p) s).merged = s.merged ++ ps.flatMap (fun p => (f p).merged) ∧
      (ps.foldl (fun s p => s ++ f p) s).conflicts =
        s.conflicts ++ ps.flatMap (fun p => (f p).conflicts) ∧
      (ps.foldl (fun s p => s ++ f p) s).textTodo =
        s.textTodo ++ ps.flatMap (fun p => (f p).textTodo) := by
  induction ps generalizing s with
  | nil => simp
  | cons p ps ih =>
    obtain ⟨hm, hc, ht⟩ := ih (s := s ++ f p)
    simp [hm, hc, ht]

theorem mergedAt_mem (h : mergedAt base a b = some e) : a = some e ∨ b = some e ∨
      ∃ a' b', base = some e ∧ a = some a' ∧ b = some b' ∧ a'.hash = e.hash ∧ b'.hash = e.hash := by
  cases base <;> cases a <;> cases b <;>
    simp only [mergedAt, mergePath, MergeState.keep, MergeState.pick, MergeState.empty] at h <;>
    grind

theorem conflictAt_path (h : conflictAt path base a b = some c) : c.path = path := by
  cases base <;> cases a <;> cases b <;>
    simp only [conflictAt, mergePath, MergeState.keep, MergeState.pick, MergeState.empty] at h <;>
    grind

theorem todoAt_eq_some : todoAt path base a b = some todo ↔
    ∃ base' a' b', base = some base' ∧ a = some a' ∧ b = some b' ∧ a'.hash ≠ base'.hash ∧
      b'.hash ≠ base'.hash ∧ a'.hash ≠ b'.hash ∧ todo = ⟨path, base'.hash, a', b'⟩ := by
  cases base <;> cases a <;> cases b <;>
    simp only [todoAt, mergePath, MergeState.keep, MergeState.pick, MergeState.empty] <;> grind

section

variable {base a b : List FileEntry} (hbase : Sorted FileEntry.path base)
  (ha : Sorted FileEntry.path a) (hb : Sorted FileEntry.path b)
include hbase ha hb

theorem mergeEntryLists_eq :
    (mergeEntryLists base a b).merged = (unionPaths base a b).filterMap (fun p =>
        mergedAt (lookup FileEntry.path base p) (lookup FileEntry.path a p)
          (lookup FileEntry.path b p)) ∧
      (mergeEntryLists base a b).conflicts = (unionPaths base a b).filterMap (fun p =>
        conflictAt p (lookup FileEntry.path base p) (lookup FileEntry.path a p)
          (lookup FileEntry.path b p)) ∧
      (mergeEntryLists base a b).textTodo = (unionPaths base a b).filterMap (fun p =>
        todoAt p (lookup FileEntry.path base p) (lookup FileEntry.path a p)
          (lookup FileEntry.path b p)) := by
  obtain ⟨hm, hc, ht⟩ := foldl_append_eq (s := .empty)
    (f := fun p => mergePath p (latest FileEntry.path base p) (latest FileEntry.path a p)
      (latest FileEntry.path b p))
  simp only [hbase.latest_eq, ha.latest_eq, hb.latest_eq, (mergePath_eq).1,
    (mergePath_eq).2.1, (mergePath_eq).2.2, ← filterMap_eq_flatMap_toList]
    at hm hc ht
  simp only [mergeEntryLists, hbase.latest_eq, ha.latest_eq, hb.latest_eq]
  exact ⟨hm, hc, ht⟩

theorem lookup_eq_none_of_not_mem (hp : p ∉ unionPaths base a b) :
    lookup FileEntry.path base p = none ∧ lookup FileEntry.path a p = none ∧
      lookup FileEntry.path b p = none := by
  rw [(unionPaths_spec hbase ha hb).2, not_or, not_or] at hp
  simp only [mem_map, not_exists, not_and] at hp
  exact ⟨lookup_eq_none.2 hp.2.2, lookup_eq_none.2 hp.1, lookup_eq_none.2 hp.2.1⟩

theorem filterMap_unionPaths_spec
    {f : String → Option FileEntry → Option FileEntry → Option FileEntry → Option α}
    (hf : ∀ p c, f p (lookup FileEntry.path base p) (lookup FileEntry.path a p)
      (lookup FileEntry.path b p) = some c → key c = p) (hnone : ∀ p, f p none none none = none) :
    Sorted key ((unionPaths base a b).filterMap fun p => f p (lookup FileEntry.path base p)
        (lookup FileEntry.path a p) (lookup FileEntry.path b p)) ∧
      ∀ p, lookup key ((unionPaths base a b).filterMap fun p => f p (lookup FileEntry.path base p)
        (lookup FileEntry.path a p) (lookup FileEntry.path b p)) p =
          f p (lookup FileEntry.path base p) (lookup FileEntry.path a p)
            (lookup FileEntry.path b p) := by
  refine ⟨sorted_filterMap (unionPaths_spec hbase ha hb).1 hf, fun p => ?_⟩
  rw [lookup_filterMap hf]
  split_ifs with hp
  · rfl
  · obtain ⟨h1, h2, h3⟩ := lookup_eq_none_of_not_mem hbase ha hb hp
    rw [h1, h2, h3, hnone]

theorem merged_spec : Sorted FileEntry.path (mergeEntryLists base a b).merged ∧
    ∀ p, lookup FileEntry.path (mergeEntryLists base a b).merged p =
      mergedAt (lookup FileEntry.path base p) (lookup FileEntry.path a p)
        (lookup FileEntry.path b p) := by
  rw [(mergeEntryLists_eq hbase ha hb).1]
  apply filterMap_unionPaths_spec hbase ha hb (f := fun _ => mergedAt)
  · intro p e he
    rcases mergedAt_mem he with h | h | ⟨_, _, h, -⟩
    all_goals exact (mem_of_lookup h).2
  · intro p
    rfl

theorem conflicts_spec : Sorted FileConflict.path (mergeEntryLists base a b).conflicts ∧
    ∀ p, lookup FileConflict.path (mergeEntryLists base a b).conflicts p =
      conflictAt p (lookup FileEntry.path base p) (lookup FileEntry.path a p)
        (lookup FileEntry.path b p) := by
  rw [(mergeEntryLists_eq hbase ha hb).2.1]
  apply filterMap_unionPaths_spec hbase ha hb (f := conflictAt)
  · intro p c hc
    exact conflictAt_path hc
  · intro p
    rfl

theorem textTodo_spec : Sorted TextMergeTodo.path (mergeEntryLists base a b).textTodo ∧
    ∀ p, lookup TextMergeTodo.path (mergeEntryLists base a b).textTodo p =
      todoAt p (lookup FileEntry.path base p) (lookup FileEntry.path a p)
        (lookup FileEntry.path b p) := by
  rw [(mergeEntryLists_eq hbase ha hb).2.2]
  apply filterMap_unionPaths_spec hbase ha hb (f := todoAt)
  · intro p todo htodo
    obtain ⟨_, _, _, -, -, -, -, -, -, rfl⟩ := todoAt_eq_some.1 htodo
    rfl
  · intro p
    rfl

end

def FileConflict.swap (c : FileConflict) : FileConflict :=
  ⟨c.path, c.baseHash, c.sideBHash, c.sideAHash⟩

def TextMergeTodo.swap (todo : TextMergeTodo) : TextMergeTodo :=
  ⟨todo.path, todo.baseHash, todo.b, todo.a⟩

/-- Two merges that differ in which side is which. Where no conflict and no text merge is left, they
have the same content. -/
structure MergeState.Mirror (s t : MergeState) : Prop where
  conflicts : t.conflicts = s.conflicts.map FileConflict.swap
  textTodo : t.textTodo = s.textTodo.map TextMergeTodo.swap
  autoResolved : t.autoResolved = s.autoResolved
  merged : Forall₂ (fun e f => e.path = f.path ∧ (e.hash = f.hash ∨
    e.path ∈ s.conflicts.map FileConflict.path ++ s.textTodo.map TextMergeTodo.path))
    s.merged t.merged

theorem MergeState.Mirror.append {s s' t t' : MergeState} (h : Mirror s t) (h' : Mirror s' t') :
    Mirror (s ++ s') (t ++ t') where
  conflicts := by simp [h.conflicts, h'.conflicts]
  textTodo := by simp [h.textTodo, h'.textTodo]
  autoResolved := congrArg₂ (· + ·) h.autoResolved h'.autoResolved
  merged := by
    apply rel_append (h.merged.imp ?_) (h'.merged.imp ?_)
    all_goals simp +contextual [or_imp]

theorem nextPath_swap : nextPath b a c = (nextPath a b c).map fun (m, x, y, z) => (m, y, x, z) := by
  cases a <;> cases b <;> cases c <;> try rfl
  case some.some.none a b =>
    rcases lt_trichotomy a b with h | rfl | h
    · simp [nextPath, h.le, h.not_ge, h.ne]
    · simp [nextPath]
    · simp [nextPath, h.le, h.not_ge, h.ne]
  all_goals simp [nextPath, min_comm, apply_ite (Option.map _)]

theorem pathsLoop_swap : pathsLoop fuel bs as cs paths = pathsLoop fuel as bs cs paths := by
  induction fuel generalizing as bs cs paths with
  | zero => rfl
  | succ fuel ih =>
    rw [pathsLoop, pathsLoop, nextPath_swap]
    cases nextPath as.head? bs.head? cs.head? with
    | none => rfl
    | some next => exact ih

theorem mergePath_mirror (ha : ∀ e ∈ a, e.path = path) (hb : ∀ e ∈ b, e.path = path) :
    (mergePath path base a b).Mirror (mergePath path base b a) := by
  cases base <;> cases a <;> cases b <;> constructor <;>
    grind [mergePath, MergeState.keep, MergeState.pick, MergeState.empty, FileConflict.swap,
      TextMergeTodo.swap, forall₂_cons, forall₂_nil_left_iff]

/-- Whatever the three lists, swapping the sides swaps them in the conflicts and in the text merges
left to do, and changes the content of no other path. -/
theorem merge_swap (base a b : List FileEntry) :
    (mergeEntryLists base a b).Mirror (mergeEntryLists base b a) := by
  have hpaths : unionPaths base b a = unionPaths base a b := by
    rw [unionPaths, unionPaths, Nat.add_comm b.length]
    exact pathsLoop_swap
  have hpath {l : List FileEntry} {path : String} :
      ∀ e ∈ latest FileEntry.path l path, e.path = path :=
    fun e he => of_decide_eq_true (mem_filter.1 (mem_of_getLast? he)).2
  have hempty : MergeState.empty.Mirror .empty := ⟨rfl, rfl, rfl, .nil⟩
  rw [mergeEntryLists, mergeEntryLists, hpaths]
  exact foldl_rel hempty fun path _ s t h => h.append (mergePath_mirror hpath hpath)

end Obsetync

import Obsetync.Assoc
import Obsetync.Resumable
import Obsetync.TreeV2.Covers

namespace Obsetync.TreeV2
open Fallible Keyed Resumable List

def V2Node.children : V2Node → List RangeRef
  | .leaf _ => []
  | .internal _ children => children

theorem Below.children {range child : RangeRef} (h : Below hashBytes store top range)
    (hload : loadNode hashBytes store range = .ok node) (hchild : child ∈ node.children) :
    Below hashBytes store top child := by
  cases node with
  | leaf entries => cases hchild
  | internal childHeight children => exact .child h hload hchild

/-- `pending` has its top first; the children of an expansion that is under way are not empty. -/
structure V2ReachabilityCursor where
  pending : List RangeRef
  expanding : Option {children : List RangeRef // children ≠ []}
  reachable : Finset FileHash
  descriptors : List (FileHash × RangeRef)
  budget : TraversalBudget
  seedingComplete : Bool

namespace V2ReachabilityCursor

def new (root : TreeV2Root) : Except ChunkError V2ReachabilityCursor := do
  validateRootShape root
  return ⟨[], none, ∅, [], ⟨0, 0⟩, false⟩

def seedRootChild (cursor : V2ReachabilityCursor) (range : RangeRef) :
    Except ChunkError V2ReachabilityCursor := do
  reject cursor.seedingComplete "Tree v2 reachability root seeding is complete"
  return { cursor with pending := range :: cursor.pending }

def finishSeeding (cursor : V2ReachabilityCursor) : V2ReachabilityCursor :=
  { cursor with seedingComplete := true }

def expand (children : List RangeRef) : Option {children : List RangeRef // children ≠ []} :=
  if h : children = [] then none else some ⟨children, h⟩

def done (cursor : V2ReachabilityCursor) : Bool :=
  cursor.seedingComplete && cursor.pending.isEmpty && cursor.expanding.isNone

def finish (cursor : V2ReachabilityCursor) : Except ChunkError (Finset FileHash) := do
  reject (!cursor.seedingComplete || !cursor.pending.isEmpty || cursor.expanding.isSome)
    "Tree v2 reachability validation is incomplete"
  return cursor.reachable

section

variable (hashBytes : Bytes → FileHash) (store : ChunkStore)

/-- A leaf's entries are charged too. -/
def charge (budget : TraversalBudget) : V2Node → Except ChunkError TraversalBudget
  | .leaf entries => budget.addEntries entries.length
  | .internal _ _ => .ok budget

/-- A pending descriptor that is new: its node is loaded and charged. -/
def visit (cursor : V2ReachabilityCursor) (range : RangeRef) (pending : List RangeRef) :
    Except ChunkError V2ReachabilityCursor := do
  let budget ← cursor.budget.node range.height
  let node ← loadNode hashBytes store range
  let budget ← charge budget node
  return { cursor with
    pending, budget
    expanding := expand node.children
    reachable := insert range.hash cursor.reachable
    descriptors := Assoc.set cursor.descriptors range.hash range }

/-- One unit of `step`, or `none` where its loop breaks. -/
def unit (cursor : V2ReachabilityCursor) : Except ChunkError (Option V2ReachabilityCursor) :=
  match cursor.expanding, cursor.pending with
  | some ⟨[], h⟩, _ => absurd rfl h
  | some ⟨child :: rest, _⟩, pending =>
    .ok (some { cursor with pending := child :: pending, expanding := expand rest })
  | none, [] => .ok none
  | none, range :: pending =>
    match Assoc.find cursor.descriptors range.hash with
    | some previous =>
      if previous ≠ range then
        .error (invalid "Tree v2 repeated hash has a different child descriptor")
      else .ok (some { cursor with pending })
    | none => (visit hashBytes store cursor range pending).map some

def step (cursor : V2ReachabilityCursor) (maxUnits : Nat) :
    Except ChunkError V2ReachabilityCursor := do
  reject (maxUnits = 0) "Tree v2 reachability step budget must be positive"
  reject (!cursor.seedingComplete) "Tree v2 reachability root seeding is incomplete"
  run (unit hashBytes store) maxUnits cursor

def start (root : TreeV2Root) : Except ChunkError V2ReachabilityCursor := do
  let cursor ← new root
  let cursor ← root.child.toList.foldlM seedRootChild cursor
  return cursor.finishSeeding

/-- Calls of `step` with the given budgets. A call with no budget is refused and changes nothing;
any other error ends the traversal. -/
def drive : List Nat → V2ReachabilityCursor → Except ChunkError V2ReachabilityCursor
  | [], cursor => .ok cursor
  | budget :: budgets, cursor =>
    match step hashBytes store cursor budget with
    | .ok cursor => drive budgets cursor
    | .error error => if budget = 0 then drive budgets cursor else .error error

end

end V2ReachabilityCursor

def usizeMax : Nat := 2 ^ 64 - 1

/-- The loop of `reachable_hashes`, for at most `turns` turns. -/
def reachableLoop (hashBytes : Bytes → FileHash) (store : ChunkStore) :
    Nat → V2ReachabilityCursor → Except ChunkError V2ReachabilityCursor
  | 0, cursor => .ok cursor
  | turns + 1, cursor =>
    if cursor.done then .ok cursor
    else do
      let cursor ← cursor.step hashBytes store usizeMax
      reachableLoop hashBytes store turns cursor

def resume (hashBytes : Bytes → FileHash) (store : ChunkStore) (root : TreeV2Root)
    (budgets : List Nat) : Except ChunkError V2ReachabilityCursor := do
  let cursor ← V2ReachabilityCursor.start root
  V2ReachabilityCursor.drive hashBytes store budgets cursor

/-- The second turn of the loop finds nothing left to do. -/
def reachableHashes (hashBytes : Bytes → FileHash) (store : ChunkStore) (root : TreeV2Root) :
    Except ChunkError (Finset FileHash) := do
  let cursor ← V2ReachabilityCursor.start root
  let cursor ← reachableLoop hashBytes store 2 cursor
  cursor.finish

namespace V2ReachabilityCursor

variable {hashBytes : Bytes → FileHash} {store : ChunkStore} {cursor cursor' : V2ReachabilityCursor}
  {root : TreeV2Root} {range : RangeRef} {top : List RangeRef}

def expansion (cursor : V2ReachabilityCursor) : List RangeRef :=
  cursor.expanding.elim [] Subtype.val

theorem elim_expand (children : List RangeRef) : (expand children).elim [] Subtype.val = children := by
  rw [expand]
  split_ifs with h
  · exact h.symm
  · rfl

theorem expansion_eq_nil : cursor.expansion = [] ↔ cursor.expanding = none := by
  rw [expansion]
  cases cursor.expanding with
  | none => exact iff_of_true rfl rfl
  | some children => exact iff_of_false children.property (Option.some_ne_none _)

theorem nodes_of_charge {budget budget' : TraversalBudget} (h : charge budget node = .ok budget') :
    budget'.nodes = budget.nodes := by
  cases node with
  | leaf entries =>
    obtain ⟨-, rfl⟩ := TraversalBudget.addEntries_eq_ok.1 h
    rfl
  | internal childHeight children =>
    cases h
    rfl

theorem visit_eq_ok {pending : List RangeRef}
    (h : visit hashBytes store cursor range pending = .ok cursor') :
    ∃ node, loadNode hashBytes store range = .ok node ∧ cursor'.pending = pending ∧
      cursor'.expansion = node.children ∧
      cursor'.reachable = insert range.hash cursor.reachable ∧
      cursor'.descriptors = Assoc.set cursor.descriptors range.hash range ∧
      cursor'.budget.nodes = cursor.budget.nodes + 1 ∧
      cursor.budget.nodes + 1 ≤ maxVisitedNodes ∧
      cursor'.seedingComplete = cursor.seedingComplete := by
  obtain ⟨budget, hbudget, h⟩ := bind_eq_ok.1 h
  obtain ⟨-, hle, rfl⟩ := TraversalBudget.node_eq_ok.1 hbudget
  obtain ⟨node, hload, h⟩ := bind_eq_ok.1 h
  obtain ⟨budget', hbudget', h⟩ := bind_eq_ok.1 h
  cases h
  exact ⟨node, hload, rfl, elim_expand _, rfl, rfl, nodes_of_charge hbudget', hle, rfl⟩

/-- What a unit does. -/
inductive Turn (hashBytes : Bytes → FileHash) (store : ChunkStore) :
    V2ReachabilityCursor → V2ReachabilityCursor → Prop where
  | transfer {cursor cursor' : V2ReachabilityCursor} (child : RangeRef) (rest : List RangeRef)
    (hexpansion : cursor.expansion = child :: rest) (hexpansion' : cursor'.expansion = rest)
    (hpending : cursor'.pending = child :: cursor.pending)
    (hreachable : cursor'.reachable = cursor.reachable)
    (hdescriptors : cursor'.descriptors = cursor.descriptors)
    (hbudget : cursor'.budget = cursor.budget)
    (hseeding : cursor'.seedingComplete = cursor.seedingComplete) :
    Turn hashBytes store cursor cursor'
  | again {cursor cursor' : V2ReachabilityCursor} (range : RangeRef) (pending : List RangeRef)
    (hexpansion : cursor.expansion = []) (hpending : cursor.pending = range :: pending)
    (hfind : Assoc.find cursor.descriptors range.hash = some range)
    (hexpansion' : cursor'.expansion = []) (hpending' : cursor'.pending = pending)
    (hreachable : cursor'.reachable = cursor.reachable)
    (hdescriptors : cursor'.descriptors = cursor.descriptors)
    (hbudget : cursor'.budget = cursor.budget)
    (hseeding : cursor'.seedingComplete = cursor.seedingComplete) :
    Turn hashBytes store cursor cursor'
  | visit {cursor cursor' : V2ReachabilityCursor} (range : RangeRef) (pending : List RangeRef)
    (node : V2Node) (hexpansion : cursor.expansion = [])
    (hpending : cursor.pending = range :: pending)
    (hfind : Assoc.find cursor.descriptors range.hash = none)
    (hload : loadNode hashBytes store range = .ok node)
    (hpending' : cursor'.pending = pending) (hexpansion' : cursor'.expansion = node.children)
    (hreachable : cursor'.reachable = insert range.hash cursor.reachable)
    (hdescriptors : cursor'.descriptors = Assoc.set cursor.descriptors range.hash range)
    (hnodes : cursor'.budget.nodes = cursor.budget.nodes + 1)
    (hlimit : cursor.budget.nodes + 1 ≤ maxVisitedNodes)
    (hseeding : cursor'.seedingComplete = cursor.seedingComplete) :
    Turn hashBytes store cursor cursor'

theorem unit_eq_some (h : unit hashBytes store cursor = .ok (some cursor')) :
    Turn hashBytes store cursor cursor' := by
  rw [unit.eq_def] at h
  cases hexp : cursor.expanding with
  | some children =>
    obtain ⟨children, hne⟩ := children
    cases children with
    | nil => exact absurd rfl hne
    | cons child rest =>
      rw [hexp] at h
      cases h
      refine .transfer child rest ?_ (elim_expand rest) rfl rfl rfl rfl rfl
      rw [expansion, hexp]
      rfl
  | none =>
    have hnil : cursor.expansion = [] := expansion_eq_nil.2 hexp
    cases hpend : cursor.pending with
    | nil =>
      rw [hexp, hpend] at h
      cases h
    | cons range pending =>
      rw [hexp, hpend] at h
      cases hfind : Assoc.find cursor.descriptors range.hash with
      | some previous =>
        simp only [hfind] at h
        split_ifs at h with hne
        rw [not_not] at hne
        cases h
        subst hne
        exact .again _ pending hnil hpend hfind rfl rfl rfl rfl rfl rfl
      | none =>
        simp only [hfind] at h
        obtain ⟨visited, hvisit, heq⟩ := map_eq_ok.1 h
        cases heq
        obtain ⟨node, hload, hpending', hexpansion', hreach, hdesc, hnodes, hle, hseed⟩ :=
          visit_eq_ok hvisit
        exact .visit range pending node hnil hpend hfind hload hpending' hexpansion' hreach hdesc
          hnodes hle hseed

theorem unit_eq_none : unit hashBytes store cursor = .ok none ↔
    cursor.expansion = [] ∧ cursor.pending = [] := by
  rw [expansion_eq_nil, unit.eq_def]
  cases hexp : cursor.expanding with
  | some children =>
    obtain ⟨children, hne⟩ := children
    cases children with
    | nil => exact absurd rfl hne
    | cons child rest =>
      refine iff_of_false (fun h => ?_) (fun h => Option.some_ne_none _ h.1)
      cases h
  | none =>
    cases hpend : cursor.pending with
    | nil => exact iff_of_true rfl ⟨rfl, rfl⟩
    | cons range pending =>
      refine iff_of_false (fun h => ?_) (fun h => cons_ne_nil _ _ h.2)
      cases hfind : Assoc.find cursor.descriptors range.hash with
      | some previous =>
        simp only [hfind] at h
        split_ifs at h
        cases h
      | none =>
        simp only [hfind] at h
        obtain ⟨visited, -, heq⟩ := map_eq_ok.1 h
        cases heq

/-- A bound on the units that are left: what is under way, and the nodes that may still be read. -/
def work (cursor : V2ReachabilityCursor) : Nat :=
  2 * cursor.expansion.length + cursor.pending.length +
    (2 * maxInternalChildren) * (maxVisitedNodes - cursor.budget.nodes)

theorem length_children (h : loadNode hashBytes store range = .ok node) :
    node.children.length ≤ maxInternalChildren := by
  cases node with
  | leaf entries => exact Nat.zero_le _
  | internal childHeight children => exact (internal_of_loadNode h).length_le

theorem Turn.work_lt (h : Turn hashBytes store cursor cursor') : cursor'.work < cursor.work := by
  simp only [work]
  cases h with
  | transfer child rest hexpansion hexpansion' hpending _ _ hbudget _ =>
    rw [hexpansion, hexpansion', hpending, hbudget, length_cons, length_cons]
    omega
  | again range pending hexpansion hpending _ hexpansion' hpending' _ _ hbudget _ =>
    rw [hexpansion, hexpansion', hpending, hpending', hbudget, length_cons]
    omega
  | visit range pending node hexpansion hpending _ hload hpending' hexpansion' _ _ hnodes hlimit _ =>
    have hchildren := length_children hload
    rw [hexpansion, hexpansion', hpending, hpending', hnodes, length_cons, length_nil]
    have hleft : maxVisitedNodes - cursor.budget.nodes =
        maxVisitedNodes - (cursor.budget.nodes + 1) + 1 := by omega
    rw [hleft, Nat.mul_add]
    omega

/-- A descriptor that waits for its turn or had it. -/
def Known (cursor : V2ReachabilityCursor) (range : RangeRef) : Prop :=
  range ∈ cursor.expansion ∨ range ∈ cursor.pending ∨
    Assoc.find cursor.descriptors range.hash = some range

theorem Turn.known (h : Turn hashBytes store cursor cursor') (hr : cursor.Known range) :
    cursor'.Known range := by
  simp only [Known] at hr ⊢
  cases h with
  | transfer child rest hexpansion hexpansion' hpending _ hdescriptors _ _ =>
    rw [hexpansion, mem_cons] at hr
    rw [hexpansion', hpending, hdescriptors, mem_cons]
    tauto
  | again again pending hexpansion hpending hfind hexpansion' hpending' _ hdescriptors _ _ =>
    rw [hexpansion, hpending, mem_cons] at hr
    rw [hexpansion', hpending', hdescriptors]
    rcases hr with hr | (rfl | hr) | hr
    · exact .inl hr
    · exact .inr (.inr hfind)
    · exact .inr (.inl hr)
    · exact .inr (.inr hr)
  | visit visited pending node hexpansion hpending hfind hload hpending' hexpansion' _ hdescriptors =>
    rw [hexpansion, hpending, mem_cons] at hr
    rw [hexpansion', hpending', hdescriptors, Assoc.find_set]
    rcases hr with hr | (rfl | hr) | hr
    · cases hr
    · exact .inr (.inr (if_pos rfl))
    · exact .inr (.inl hr)
    · refine .inr (.inr ?_)
      rw [if_neg, hr]
      rintro heq
      rw [heq, hfind] at hr
      cases hr

/-- What a traversal from `top` knows of what it has seen. -/
structure Tracks (hashBytes : Bytes → FileHash) (store : ChunkStore) (top : List RangeRef)
    (cursor : V2ReachabilityCursor) : Prop where
  waiting : ∀ r, r ∈ cursor.expansion ∨ r ∈ cursor.pending → Below hashBytes store top r
  visited : ∀ hash r, Assoc.find cursor.descriptors hash = some r → r.hash = hash ∧
    Below hashBytes store top r ∧ ∃ node, loadNode hashBytes store r = .ok node ∧
      ∀ child ∈ node.children, cursor.Known child
  seeds : ∀ r ∈ top, cursor.Known r
  hashes : ∀ hash, hash ∈ cursor.reachable ↔ (Assoc.find cursor.descriptors hash).isSome
  seeded : cursor.seedingComplete = true

theorem Tracks.turn (ht : Tracks hashBytes store top cursor)
    (h : Turn hashBytes store cursor cursor') : Tracks hashBytes store top cursor' := by
  have hknown {r : RangeRef} (hr : cursor.Known r) : cursor'.Known r := h.known hr
  have hvisited (hash : FileHash) (r : RangeRef)
      (hr : Assoc.find cursor.descriptors hash = some r) : r.hash = hash ∧
      Below hashBytes store top r ∧ ∃ node, loadNode hashBytes store r = .ok node ∧
        ∀ child ∈ node.children, cursor'.Known child := by
    obtain ⟨hhash, hbelow, node, hload, hchildren⟩ := ht.visited hash r hr
    exact ⟨hhash, hbelow, node, hload, fun child hc => hknown (hchildren child hc)⟩
  have hseeds (r : RangeRef) (hr : r ∈ top) : cursor'.Known r := hknown (ht.seeds r hr)
  cases h with
  | transfer child rest hexpansion hexpansion' hpending hreachable hdescriptors _ hseeding =>
    refine ⟨fun r hr => ht.waiting r ?_, ?_, hseeds, ?_, hseeding.trans ht.seeded⟩
    · rw [hexpansion', hpending, mem_cons] at hr
      rw [hexpansion, mem_cons]
      tauto
    · rw [hdescriptors]
      exact hvisited
    · rw [hdescriptors, hreachable]
      exact ht.hashes
  | again range pending hexpansion hpending _ hexpansion' hpending' hreachable hdescriptors _ hseeding =>
    refine ⟨fun r hr => ht.waiting r ?_, ?_, hseeds, ?_, hseeding.trans ht.seeded⟩
    · rw [hexpansion', hpending'] at hr
      rw [hexpansion, hpending, mem_cons]
      tauto
    · rw [hdescriptors]
      exact hvisited
    · rw [hdescriptors, hreachable]
      exact ht.hashes
  | visit range pending node hexpansion hpending hfind hload hpending' hexpansion' hreachable
      hdescriptors _ _ hseeding =>
    have hrange : Below hashBytes store top range :=
      ht.waiting range (.inr (hpending ▸ mem_cons_self))
    refine ⟨fun r hr => ?_, fun hash r hr => ?_, hseeds, fun hash => ?_, hseeding.trans ht.seeded⟩
    · rw [hexpansion', hpending'] at hr
      rcases hr with hr | hr
      · exact hrange.children hload hr
      · exact ht.waiting r (.inr (hpending ▸ mem_cons_of_mem _ hr))
    · rw [hdescriptors, Assoc.find_set] at hr
      split_ifs at hr with heq
      · cases hr
        exact ⟨heq.symm, hrange, node, hload, fun child hc => .inl (hexpansion' ▸ hc)⟩
      · exact hvisited hash r hr
    · rw [hdescriptors, hreachable, Finset.mem_insert, Assoc.find_set, ht.hashes]
      split_ifs with heq
      · exact iff_of_true (.inl heq) rfl
      · exact or_iff_right heq

theorem Tracks.find_below (ht : Tracks hashBytes store top cursor) (hexpansion : cursor.expansion = [])
    (hpending : cursor.pending = []) (h : Below hashBytes store top range) :
    Assoc.find cursor.descriptors range.hash = some range := by
  have hdone {r : RangeRef} (hr : cursor.Known r) :
      Assoc.find cursor.descriptors r.hash = some r := by
    rw [Known, hexpansion, hpending] at hr
    rcases hr with hr | hr | hr
    · cases hr
    · cases hr
    · exact hr
  induction h with
  | here hr => exact hdone (ht.seeds _ hr)
  | child hp hload hr ih =>
    obtain ⟨-, -, node, hnode, hchildren⟩ := ht.visited _ _ ih
    rw [hload] at hnode
    cases hnode
    exact hdone (hchildren _ hr)

theorem done_iff : cursor.done = true ↔ cursor.seedingComplete = true ∧
    unit hashBytes store cursor = .ok none := by
  rw [unit_eq_none, expansion_eq_nil, done, Bool.and_eq_true, Bool.and_eq_true, List.isEmpty_iff,
    Option.isNone_iff_eq_none]
  tauto

theorem finish_of_done (h : cursor.done = true) : cursor.finish = .ok cursor.reachable := by
  simp only [done, Bool.and_eq_true] at h
  simp only [finish, h, Option.isNone_iff_eq_none.1 h.2]
  rfl

theorem finish_eq_ok :
    cursor.finish = .ok hashes ↔ cursor.done = true ∧ cursor.reachable = hashes := by
  refine ⟨fun h => ?_, fun ⟨hdone, heq⟩ => heq ▸ finish_of_done hdone⟩
  simp only [finish, bind_eq_ok, exists_unit, reject_eq_ok, pure_eq_ok, Bool.or_eq_false_iff,
    Bool.not_eq_false', Option.isSome_eq_false_iff] at h
  obtain ⟨⟨⟨hseeded, hpending⟩, hexpanding⟩, heq⟩ := h
  rw [done, hseeded, hpending, hexpanding]
  exact ⟨rfl, heq⟩

theorem start_eq_ok : start root = .ok cursor ↔ validateRootShape root = .ok () ∧
    ⟨root.child.toList, none, ∅, [], ⟨0, 0⟩, true⟩ = cursor := by
  rw [start]
  simp only [new, bind_eq_ok, exists_unit, pure_eq_ok]
  cases root.child
  all_goals
    constructor
    · rintro ⟨_, ⟨hshape, rfl⟩, _, ⟨⟩, h⟩
      exact ⟨hshape, h⟩
    · rintro ⟨hshape, h⟩
      exact ⟨_, ⟨hshape, rfl⟩, _, rfl, h⟩

theorem tracks_start (h : start root = .ok cursor) :
    Tracks hashBytes store root.child.toList cursor := by
  obtain ⟨-, rfl⟩ := start_eq_ok.1 h
  exact ⟨fun r hr => .here (hr.resolve_left not_mem_nil), nofun, fun r hr => .inr (.inl hr),
    fun hash => iff_of_false (Finset.notMem_empty hash) nofun, rfl⟩

theorem step_eq_run (hseeded : cursor.seedingComplete = true) (hbudget : n ≠ 0) :
    step hashBytes store cursor n = run (unit hashBytes store) n cursor := by
  rw [step, hseeded, decide_eq_false hbudget]
  rfl

theorem Tracks.unit (ht : Tracks hashBytes store top cursor)
    (h : unit hashBytes store cursor = .ok (some cursor')) :
    Tracks hashBytes store top cursor' ∧ cursor'.work < cursor.work :=
  ⟨ht.turn (unit_eq_some h), (unit_eq_some h).work_lt⟩

theorem Tracks.run (ht : Tracks hashBytes store top cursor)
    (h : run (V2ReachabilityCursor.unit hashBytes store) n cursor = .ok cursor') :
    Tracks hashBytes store top cursor' :=
  run_invariant (fun _ _ hs hnext => (Tracks.unit hs hnext).1) ht h

theorem drive_eq_run (ht : Tracks hashBytes store top cursor) (budgets : List Nat) :
    drive hashBytes store budgets cursor = run (unit hashBytes store) budgets.sum cursor := by
  induction budgets generalizing cursor with
  | nil => rfl
  | cons budget budgets ih =>
    rw [drive, sum_cons, run_add]
    by_cases hz : budget = 0
    · have hrefused : step hashBytes store cursor budget =
          .error (invalid "Tree v2 reachability step budget must be positive") := by
        rw [step, decide_eq_true hz]
        rfl
      rw [hrefused, hz]
      exact ih ht
    · rw [step_eq_run ht.seeded hz]
      cases h : Resumable.run (unit hashBytes store) budget cursor with
      | error e => exact if_neg hz
      | ok cursor' => exact ih (ht.run h)

def enough : Nat := 2 + 2 * maxInternalChildren * maxVisitedNodes

theorem work_start (h : start root = .ok cursor) : cursor.work < enough := by
  obtain ⟨-, rfl⟩ := start_eq_ok.1 h
  have hone : root.child.toList.length ≤ 1 := by cases root.child <;> simp
  change 2 * 0 + root.child.toList.length + 2 * maxInternalChildren * maxVisitedNodes < enough
  rw [enough]
  omega

theorem done_of_enough (h : start root = .ok cursor) (hn : enough ≤ n)
    (hrun : run (unit hashBytes store) n cursor = .ok cursor') : cursor'.done = true := by
  have ht : Tracks hashBytes store root.child.toList cursor := tracks_start h
  have hnone := done_of_measure (fun _ _ hs hnext => Tracks.unit hs hnext) ht
    ((work_start h).trans_le hn) hrun
  exact done_iff.2 ⟨(ht.run hrun).seeded, hnone⟩

theorem reachableHashes_eq (h : start root = .ok cursor) (hn : enough ≤ n) :
    reachableHashes hashBytes store root = run (unit hashBytes store) n cursor >>= finish := by
  have ht : Tracks hashBytes store root.child.toList cursor := tracks_start h
  have hmax : enough ≤ usizeMax := by decide
  have hloop : reachableLoop hashBytes store 2 cursor = run (unit hashBytes store) usizeMax cursor := by
    rw [reachableLoop]
    split_ifs with hdone
    · exact (run_of_done (done_iff.1 hdone).2 usizeMax).symm
    · rw [step_eq_run ht.seeded (by decide)]
      cases hrun : Resumable.run (unit hashBytes store) usizeMax cursor with
      | error e => rfl
      | ok cursor' =>
        change reachableLoop hashBytes store 1 cursor' = .ok cursor'
        rw [reachableLoop, if_pos (done_of_enough h hmax hrun)]
  rw [reachableHashes, h]
  change (reachableLoop hashBytes store 2 cursor >>= finish) = _
  rw [hloop]
  congr 1
  exact run_eq_of_measure (fun _ _ hs hnext => Tracks.unit hs hnext) ht
    ((work_start h).trans_le hmax) ((work_start h).trans_le hn)

theorem resume_eq (h : start root = .ok cursor) :
    resume hashBytes store root budgets = run (unit hashBytes store) budgets.sum cursor := by
  rw [resume, h]
  exact drive_eq_run (tracks_start h) budgets

theorem resume_finish (hashBytes : Bytes → FileHash) (store : ChunkStore) (root : TreeV2Root)
    (budgets : List Nat) :
    (∃ cursor, resume hashBytes store root budgets = .ok cursor ∧ cursor.done = false) ∨
      (resume hashBytes store root budgets >>= finish) = reachableHashes hashBytes store root := by
  cases h : start root with
  | error e =>
    right
    rw [resume, reachableHashes, h]
    rfl
  | ok cursor =>
    have hle : budgets.sum ≤ budgets.sum + enough := Nat.le_add_right _ _
    rw [resume_eq h, reachableHashes_eq h (Nat.le_add_left enough budgets.sum)]
    cases hrun : Resumable.run (unit hashBytes store) budgets.sum cursor with
    | error e =>
      right
      rw [run_eq_of_error hrun hle]
    | ok cursor' =>
      cases hdone : cursor'.done with
      | false => exact .inl ⟨cursor', rfl, hdone⟩
      | true =>
        right
        rw [run_eq_of_done hrun (done_iff.1 hdone).2 hle]

theorem resume_enough (hn : enough ≤ budgets.sum) :
    (resume hashBytes store root budgets >>= finish) = reachableHashes hashBytes store root := by
  obtain ⟨cursor', hresume, hdone⟩ | h := resume_finish hashBytes store root budgets
  · obtain ⟨cursor, hstart, -⟩ := bind_eq_ok.1 hresume
    rw [resume_eq hstart] at hresume
    rw [done_of_enough hstart hn hresume] at hdone
    cases hdone
  · exact h

theorem tracks_of_reachableHashes (h : reachableHashes hashBytes store root = .ok hashes) :
    validateRootShape root = .ok () ∧
    (∀ hash, hash ∈ hashes ↔ ∃ r, Below hashBytes store root.child.toList r ∧ r.hash = hash) ∧
    (∀ r, Below hashBytes store root.child.toList r → ∃ node, loadNode hashBytes store r = .ok node) ∧
    ∀ r r', Below hashBytes store root.child.toList r → Below hashBytes store root.child.toList r' →
      r.hash = r'.hash → r = r' := by
  obtain ⟨cursor, hstart, -⟩ := bind_eq_ok.1 h
  rw [reachableHashes_eq hstart le_rfl] at h
  obtain ⟨final, hrun, hfinish⟩ := bind_eq_ok.1 h
  obtain ⟨hdone, rfl⟩ := finish_eq_ok.1 hfinish
  have ht : Tracks hashBytes store root.child.toList final := (tracks_start hstart).run hrun
  obtain ⟨hexpansion, hpending⟩ :=
    unit_eq_none.1 ((@done_iff hashBytes store final).1 hdone).2
  have hfind {r : RangeRef} (hr : Below hashBytes store root.child.toList r) :
      Assoc.find final.descriptors r.hash = some r := ht.find_below hexpansion hpending hr
  refine ⟨(start_eq_ok.1 hstart).1, fun hash => ?_, fun r hr => ?_, fun r r' hr hr' heq => ?_⟩
  · rw [ht.hashes, Option.isSome_iff_exists]
    constructor
    · rintro ⟨r, hr⟩
      obtain ⟨hhash, hbelow, -⟩ := ht.visited hash r hr
      exact ⟨r, hbelow, hhash⟩
    · rintro ⟨r, hbelow, rfl⟩
      exact ⟨r, hfind hbelow⟩
  · obtain ⟨-, -, node, hload, -⟩ := ht.visited _ r (hfind hr)
    exact ⟨node, hload⟩
  · have hsame := hfind hr
    rw [heq, hfind hr'] at hsame
    exact (Option.some.inj hsame).symm

end V2ReachabilityCursor

theorem totalFiles_eq (h : validateRootShape root = .ok ()) :
    root.totalFiles.toNat = countOf root.child.toList := by
  simp only [validateRootShape, bind_eq_ok, exists_unit, reject_eq_ok, decide_eq_false_iff_not,
    not_not] at h
  obtain ⟨-, h⟩ := h
  cases hchild : root.child with
  | none =>
    simp only [hchild, reject_eq_ok, decide_eq_false_iff_not, not_not] at h
    rw [h]
    rfl
  | some child =>
    simp only [hchild, bind_eq_ok, exists_unit, reject_eq_ok, Bool.not_eq_false', Bool.and_eq_true,
      decide_eq_true_eq] at h
    rw [← h.1.1.2]
    exact (Nat.add_zero _).symm

/-- However the work is cut into steps, a traversal that ends, ends with one result: the hashes of
all that lies below the root, where every descriptor is right about the sorted entries below it and
is the only one of its hash. -/
theorem reachability_unscheduled (hashBytes : Bytes → FileHash) (store : ChunkStore)
    (root : TreeV2Root) :
    (∀ budgets, (∃ cursor, resume hashBytes store root budgets = .ok cursor ∧ cursor.done = false) ∨
      (resume hashBytes store root budgets >>= V2ReachabilityCursor.finish) =
        reachableHashes hashBytes store root) ∧
    (∀ budgets, V2ReachabilityCursor.enough ≤ budgets.sum →
      (resume hashBytes store root budgets >>= V2ReachabilityCursor.finish) =
        reachableHashes hashBytes store root) ∧
    (∀ hashes, reachableHashes hashBytes store root = .ok hashes → (∀ hash, hash ∈ hashes ↔
        ∃ r, Below hashBytes store root.child.toList r ∧ r.hash = hash) ∧
      (∃ leaves entries n, Denotes hashBytes store root.child.toList leaves entries n ∧
        Sorted FileEntry.path entries ∧ entries.length = root.totalFiles.toNat) ∧
      ∀ r, Below hashBytes store root.child.toList r → ∃ leaves entries n,
        Denotes hashBytes store [r] leaves entries n ∧ Covers r entries) ∧
    ∀ r r', Below hashBytes store root.child.toList r → Below hashBytes store root.child.toList r' →
      r.hash = r'.hash → r ≠ r' → ∃ error, reachableHashes hashBytes store root = .error error := by
  refine ⟨V2ReachabilityCursor.resume_finish hashBytes store root,
    fun budgets => V2ReachabilityCursor.resume_enough, fun hashes h => ?_,
    fun r r' hr hr' heq hne => ?_⟩
  · obtain ⟨hshape, hhashes, hloads, -⟩ := V2ReachabilityCursor.tracks_of_reachableHashes h
    have hcovers (r : RangeRef) (hr : Below hashBytes store root.child.toList r) :
        ∃ leaves entries n, Denotes hashBytes store [r] leaves entries n ∧ Covers r entries :=
      covers_of_below hloads hr
    have hone : root.child.toList.Pairwise fun a b => a.maxPath < b.minPath := by
      cases root.child with
      | none => exact List.Pairwise.nil
      | some child => exact pairwise_singleton _ _
    obtain ⟨leaves, entries, n, hd, hsort, -, hcount⟩ :=
      denotes_ordered (fun r hr => hcovers r (.here hr)) hone
    exact ⟨hhashes, ⟨leaves, entries, n, hd, hsort, hcount.trans (totalFiles_eq hshape).symm⟩,
      hcovers⟩
  · cases h : reachableHashes hashBytes store root with
    | error error => exact ⟨error, rfl⟩
    | ok hashes =>
      obtain ⟨-, -, -, hunique⟩ := V2ReachabilityCursor.tracks_of_reachableHashes h
      exact absurd (hunique r r' hr hr' heq) hne

/-- A root with one leaf is accepted, also when its one unit follows a refused budget. -/
theorem reachability_unscheduled_single :
    let store := storeOf lengthHash [leafOf [single]]
    let root := leafRoot [single] "note.md" "note.md"
    (resume lengthHash store root [0, 1] >>= V2ReachabilityCursor.finish).toOption =
        some {lengthHash (leafOf [single])} ∧
      ∃ hashes, reachableHashes lengthHash store root = .ok hashes := by
  intro store root
  have hrun : (resume lengthHash store root [0, 1] >>= V2ReachabilityCursor.finish).toOption =
      some {lengthHash (leafOf [single])} := by
    decide +kernel
  obtain ⟨hashes, hok⟩ : ∃ hashes,
      (resume lengthHash store root [0, 1] >>= V2ReachabilityCursor.finish) = .ok hashes := by
    cases h : resume lengthHash store root [0, 1] >>= V2ReachabilityCursor.finish with
    | error e =>
      rw [h] at hrun
      cases hrun
    | ok hashes => exact ⟨hashes, rfl⟩
  refine ⟨hrun, hashes, ?_⟩
  obtain ⟨cursor, hresume, hdone⟩ | h := (reachability_unscheduled lengthHash store root).1 [0, 1]
  · rw [hresume] at hok
    rw [(V2ReachabilityCursor.finish_eq_ok.1 hok).1] at hdone
    cases hdone
  · rw [← h, hok]

end Obsetync.TreeV2

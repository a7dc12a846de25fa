import Obsetync.SyncBase.Queue

namespace Obsetync.SyncBase
open List

/-- What a mutator means: the state after it from the state at its place in the order of calls. -/
def Setter.apply (env : Env) (state : BaseState) : Setter → BaseState
  | .setEntry path hash mtime size treeMtime =>
    applyBaseOperation state (setEntryOperation path hash mtime size treeMtime)
  | .refreshLocalMetadata path mtime size =>
    (refreshOperation path mtime size (state.entries path)).elim state (applyBaseOperation state)
  | .removeEntry path => applyBaseOperation state (.remove path)
  | .setTreeBaseRoot hash => applyBaseOperation state (.treeRoot hash)
  | .setVerifiedBaseRequired required => applyBaseOperation state (.baseFence required)
  | .setDiffPageCheckpoint checkpoint => applyBaseOperation state (.diffPage (some checkpoint))
  | .clearDiffPageCheckpoint => applyBaseOperation state (.diffPage none)
  | .approveBulkChange vaultId total trackedDeletions approvedAt =>
    applyBaseOperation state (.bulkApproval
      (some (bulkChangeApprovalOf env vaultId total trackedDeletions approvedAt)))
  | .clearBulkChangeApproval => applyBaseOperation state (.bulkApproval none)
  | .setLastSyncTimestamp ts => applyBaseOperation state (.timestamp ts)

def applyEntries (state : BaseState) (entries : List RootBasePublicationEntry) : BaseState :=
  entries.foldl (fun st row => applyBaseOperation st row.operation) state

def applyPublication (env : Env) (state : BaseState) (p : RootBasePublication) : BaseState :=
  applyMarker (applyEntries state p.entries) (publicationMarker env p)

/-- A call that was not refused on the spot: `queued` is a checkpoint, a save or a load. -/
inductive Item
  | setter (call : Setter)
  | publication (promise : Nat) (p : RootBasePublication)
  | queued (promise : Nat)

def Item.apply (env : Env) (accepted : Nat → Prop) [DecidablePred accepted] (state : BaseState) :
    Item → BaseState
  | .setter call => call.apply env state
  | .publication promise p => if accepted promise then applyPublication env state p else state
  | .queued _ => state

/-- The calls in their order, with the accepted publications at their places. -/
def replay (env : Env) (accepted : Nat → Prop) [DecidablePred accepted] (state : BaseState)
    (calls : List Item) : BaseState :=
  calls.foldl (Item.apply env accepted) state

def sequences (accepted : Nat → Prop) [DecidablePred accepted] (calls : List Item) : List Nat :=
  calls.filterMap fun
    | .publication promise p => if accepted promise then some p.identity.sequence else none
    | _ => none

def Item.isQueued (promise : Nat) : Item → Bool
  | .queued n => n = promise
  | _ => false

def behind (promise : Nat) (calls : List Item) : List Item :=
  (calls.dropWhile fun item => !item.isQueued promise).drop 1

/-- The sync base with the calls since its last load and the state that load gave. -/
structure World where
  base : Base
  origin : BaseState
  calls : List Item

def World.loaded (disk : Disk) (state : BaseState) (walSegments : Nat) : World :=
  ⟨Base.loaded disk state walSegments, state, []⟩

/-- The promise of a load that ends, and the state it gives. -/
def Base.reloaded (s : Base) (outcome : Outcome) : Option (Nat × BaseState) :=
  match s.current, outcome, s.writeChain with
  | some .load, .done _, task :: _ => s.disk.load.map fun state => (task.promise, state)
  | _, _, _ => none

def World.enqueue (w : World) (work : Work) : World :=
  { w with base := w.base.enqueue work, calls := w.calls ++ [.queued w.base.promises] }

def World.step (env : Env) (w : World) : Event → World
  | .setter call =>
    match w.base.setter env call with
    | none => w
    | some base => { w with base := base, calls := w.calls ++ [.setter call] }
  | .commitRootPublication p =>
    match w.base.commitRootPublication env p with
    | none => w
    | some base => { w with base := base, calls := w.calls ++ [.publication w.base.promises p] }
  | .checkpoint => w.enqueue .checkpoint
  | .save => w.enqueue .save
  | .load => w.enqueue .load
  | .start => { w with base := w.base.start env }
  | .resume outcome =>
    match w.base.reloaded outcome with
    | some (promise, state) => ⟨w.base.resume env outcome, state, behind promise w.calls⟩
    | none => { w with base := w.base.resume env outcome }

def Base.settledLoad (s : Base) : Prop := ∀ task ∈ s.writeChain, task.work ≠ .load

def Base.queuedPaths (s : Base) : List String :=
  s.writeChain.flatMap fun task =>
    match task.work with
    | .publication p _ _ => p.paths
    | _ => []

/-- The calls on which the sync base keeps the order of calls: mutators and publications not while
a load waits, the fence not set to its visible value while a publication waits, local metadata not
refreshed on a path that a waiting publication names. -/
def Careful (s : Base) : Event → Prop
  | .setter (.setVerifiedBaseRequired required) =>
    s.settledLoad ∧ (s.visible.data.verifiedBaseRequired = required → s.publicationBarriers = [])
  | .setter (.refreshLocalMetadata path _ _) => s.settledLoad ∧ path ∉ s.queuedPaths
  | .setter _ => s.settledLoad
  | .commitRootPublication _ => s.settledLoad
  | _ => True

/-- The runs from a load, with every event careful. -/
inductive CarefulRun (env : Env) : World → Prop
  | loaded (disk : Disk) (state : BaseState) (walSegments : Nat) (h : disk.load = some state) :
    CarefulRun env (World.loaded disk state walSegments)
  | step (w : World) (event : Event) (h : CarefulRun env w) (hc : Careful w.base event) :
    CarefulRun env (w.step env event)

/-- A call with what the sync base made of it: nothing to write, a queued row, or a publication
behind its barrier. -/
inductive Traced
  | silent (call : Setter)
  | queued (promise : Nat)
  | recorded (call : Setter) (row : PendingBaseOperation)
  | publication (promise : Nat) (p : RootBasePublication) (version : Nat)

namespace Traced

def item : Traced → Item
  | .silent call => .setter call
  | .queued promise => .queued promise
  | .recorded call _ => .setter call
  | .publication promise p _ => .publication promise p

def row : Traced → Option PendingBaseOperation
  | .recorded _ row => some row
  | _ => none

def version : Traced → Option Nat
  | .recorded _ row => some row.version
  | .publication _ _ version => some version
  | _ => none

def promise : Traced → Option Nat
  | .queued promise => some promise
  | .publication promise _ _ => some promise
  | _ => none

def apply (env : Env) (accepted : Nat → Prop) [DecidablePred accepted] (state : BaseState) :
    Traced → BaseState
  | .silent _ => state
  | .queued _ => state
  | .recorded _ row => applyBaseOperation state row.operation
  | .publication promise p _ => if accepted promise then applyPublication env state p else state

end Traced

def effect (env : Env) (accepted : Nat → Prop) [DecidablePred accepted] (state : BaseState)
    (trace : List Traced) : BaseState :=
  trace.foldl (Traced.apply env accepted) state

def rows (trace : List Traced) : List PendingBaseOperation := trace.filterMap Traced.row

section
variable {env : Env} {accepted accepted' : Nat → Prop} [DecidablePred accepted]
  [DecidablePred accepted']

@[simp] theorem rows_append : rows (a ++ b) = rows a ++ rows b :=
  filterMap_append

theorem replay_append (state : BaseState) (a b : List Item) :
    replay env accepted state (a ++ b) = replay env accepted (replay env accepted state a) b :=
  foldl_append

theorem effect_append :
    effect env accepted state (a ++ b) = effect env accepted (effect env accepted state a) b :=
  foldl_append

theorem effect_eq_applyPending (h : ∀ n p v, .publication n p v ∈ trace → ¬ accepted n)
    (state : BaseState) :
    effect env accepted state trace = Base.applyPending state (rows trace) := by
  induction trace generalizing state with
  | nil => rfl
  | cons t trace ih =>
    have hrest := ih fun n p v hm => h n p v (mem_cons_of_mem _ hm)
    cases t with
    | silent call => exact hrest state
    | queued promise => exact hrest state
    | recorded call row => exact hrest _
    | publication n p v =>
      have hn : ¬ accepted n := h n p v mem_cons_self
      rw [effect, foldl_cons, Traced.apply, if_neg hn]
      exact hrest state

theorem effect_congr (h : ∀ n p v, .publication n p v ∈ trace → (accepted n ↔ accepted' n))
    (state : BaseState) : effect env accepted state trace = effect env accepted' state trace := by
  induction trace generalizing state with
  | nil => rfl
  | cons t trace ih =>
    have hrest := ih fun n p v hm => h n p v (mem_cons_of_mem _ hm)
    cases t with
    | silent call => exact hrest state
    | queued promise => exact hrest state
    | recorded call row => exact hrest _
    | publication n p v =>
      have hn := h n p v mem_cons_self
      rw [effect, effect, foldl_cons, foldl_cons, Traced.apply, Traced.apply, if_congr hn rfl rfl]
      exact hrest _

theorem applyEntries_data (state : BaseState) (entries : List RootBasePublicationEntry) :
    (applyEntries state entries).data = state.data := by
  induction entries generalizing state with
  | nil => rfl
  | cons row entries ih =>
    rw [applyEntries, foldl_cons, ← applyEntries, ih]
    cases row <;> rfl

theorem applyBaseOperation_entries (h : a.entries path = b.entries path) :
    (applyBaseOperation a op).entries path = (applyBaseOperation b op).entries path := by
  cases op with
  | set q entry => by_cases hq : path = q <;> simp [applyBaseOperation, hq, h]
  | remove q => by_cases hq : path = q <;> simp [applyBaseOperation, hq, h]
  | timestamp value => exact h
  | treeRoot value => exact h
  | baseFence value => exact h
  | diffPage value => exact h
  | bulkApproval value => exact h

theorem applyEntries_entries (entries : List RootBasePublicationEntry)
    (h : a.entries path = b.entries path) :
    (applyEntries a entries).entries path = (applyEntries b entries).entries path := by
  induction entries generalizing a b with
  | nil => exact h
  | cons row entries ih => exact ih (applyBaseOperation_entries h)

theorem applyEntries_of_not_mem (h : path ∉ entries.map RootBasePublicationEntry.path)
    (state : BaseState) : (applyEntries state entries).entries path = state.entries path := by
  induction entries generalizing state with
  | nil => rfl
  | cons row entries ih =>
    rw [map_cons, mem_cons, not_or] at h
    rw [applyEntries, foldl_cons, ← applyEntries, ih h.2]
    cases row with
    | upsert q hash mtime size treeMtime => exact Function.update_of_ne h.1 _ _
    | delete q => exact Function.update_of_ne h.1 _ _

def kept (state : BaseState) : Option DiffPageCheckpoint × Option BulkChangeApproval :=
  (state.data.diffPageCheckpoint, state.data.bulkChangeApproval)

theorem applyBaseOperation_kept (h : kept a = kept b) :
    kept (applyBaseOperation a op) = kept (applyBaseOperation b op) := by
  have hpage := congrArg Prod.fst h
  have hbulk := congrArg Prod.snd h
  cases op with
  | set q entry => exact h
  | remove q => exact h
  | timestamp value => exact h
  | treeRoot value => exact h
  | baseFence value => exact h
  | diffPage value => exact Prod.ext rfl hbulk
  | bulkApproval value => exact Prod.ext hpage rfl

theorem applyPublication_kept : kept (applyPublication env state p) = kept state := by
  have hdata := applyEntries_data state p.entries
  rw [applyPublication, kept, applyMarker, kept]
  dsimp only
  rw [hdata]

theorem Traced.apply_kept (t : Traced) (h : kept a = kept b) :
    kept (t.apply env accepted a) = kept (t.apply env accepted' b) := by
  cases t with
  | silent call => exact h
  | queued promise => exact h
  | recorded call row => exact applyBaseOperation_kept h
  | publication n p v =>
    rw [Traced.apply, Traced.apply]
    split_ifs
    · rw [applyPublication_kept, applyPublication_kept, h]
    · rw [applyPublication_kept, h]
    · rw [applyPublication_kept, h]
    · exact h

theorem effect_kept (trace : List Traced) (h : kept a = kept b) :
    kept (effect env accepted a trace) = kept (effect env accepted' b trace) := by
  induction trace generalizing a b with
  | nil => exact h
  | cons t trace ih => exact ih (t.apply_kept h)

theorem effect_entries
    (h : ∀ n p v, .publication n p v ∈ trace → path ∈ p.paths → (accepted n ↔ accepted' n))
    (hab : a.entries path = b.entries path) :
    (effect env accepted a trace).entries path = (effect env accepted' b trace).entries path := by
  induction trace generalizing a b with
  | nil => exact hab
  | cons t trace ih =>
    rw [effect, effect, foldl_cons, foldl_cons]
    apply ih fun n p v hm => h n p v (mem_cons_of_mem _ hm)
    cases t with
    | silent call => exact hab
    | queued promise => exact hab
    | recorded call row => exact applyBaseOperation_entries hab
    | publication n p v =>
      rw [Traced.apply, Traced.apply]
      by_cases hp : path ∈ p.paths
      · rw [if_congr (h n p v mem_cons_self hp) rfl rfl]
        split_ifs
        · exact applyEntries_entries p.entries hab
        · exact hab
      · have hsame (state : BaseState) :
            (applyPublication env state p).entries path = state.entries path :=
          applyEntries_of_not_mem hp state
        split_ifs
        · rw [hsame, hsame, hab]
        · rw [hsame, hab]
        · rw [hsame, hab]
        · exact hab

theorem applyRows_publicationRows : applyRows state (publicationRows env p) =
      if mayFollow state.data.lastAppliedPublication (publicationMarker env p) then
        some (applyPublication env state p)
      else none := by
  have hops (entries : List RootBasePublicationEntry) (st : BaseState) :
      (entries.map fun row => Row.operation row.operation).foldlM applyRow st =
        some (applyEntries st entries) := by
    induction entries generalizing st with
    | nil => rfl
    | cons row entries ih => exact ih (applyBaseOperation st row.operation)
  rw [applyRows, publicationRows, foldlM_append, hops]
  change [Row.rootPublication (publicationMarker env p)].foldlM applyRow _ = _
  rw [foldlM_cons, applyRow, applyEntries_data]
  split_ifs <;> rfl

theorem applyRows_rowsOf :
    applyRows state (Base.rowsOf operations) = some (Base.applyPending state operations) := by
  induction operations generalizing state with
  | nil => rfl
  | cons row operations ih => exact ih

theorem Disk.load_commit {disk : Disk} (h : disk.load = some state) (hv : rs.all validateRow) :
    (disk.commit rs).load = applyRows state rs := by
  rw [Disk.load] at h
  split_ifs at h with hd
  rw [Disk.load, Disk.commit, all_append, hd, hv, Bool.and_self, if_pos rfl]
  dsimp only
  rw [applyRows, foldlM_append, ← applyRows, h]
  rfl

end

end Obsetync.SyncBase

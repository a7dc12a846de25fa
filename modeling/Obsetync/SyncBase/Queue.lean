import Obsetync.SyncBase.State

namespace Obsetync.SyncBase

structure PendingBaseOperation where
  version : Nat
  operation : SyncBaseOperation
  estimatedBytes : Nat
  deriving DecidableEq, Repr

/-- What the sync base takes from JSON, SHA-256 and its options. -/
structure Env where
  estimatePendingOperationBytes : SyncBaseOperation → Nat
  encodedBytes : RootBasePublication → Nat
  rootPublicationDigest : RootBasePublication → String
  /-- `Math.ceil(total * 0.01)`, in double precision. -/
  onePercent : Nat → Nat
  maxPendingOperations : Nat
  maxPendingOperationEstimatedBytes : Nat

/-- `STORE_LIMITS.compactAfterSegments`. -/
def compactAfterSegments : Nat := 128

/-- `ROOT_BASE_PUBLICATION_LIMITS`. -/
def publicationEntries : Nat := 256
def publicationEncodedBytes : Nat := 256 * 1024
def publicationQueuedRequests : Nat := 4
def publicationQueuedEncodedBytes : Nat := 1024 * 1024

def RootBasePublicationEntry.path : RootBasePublicationEntry → String
  | .upsert path _ _ _ _ => path
  | .delete path => path

def RootBasePublicationEntry.operation : RootBasePublicationEntry → SyncBaseOperation
  | .upsert path hash mtime size treeMtime => .set path ⟨hash, mtime, size, treeMtime⟩
  | .delete path => .remove path

def RootBasePublication.paths (p : RootBasePublication) : List String :=
  p.entries.map RootBasePublicationEntry.path

/-- `detachRootBasePublication`: the checks of a publication. -/
def validPublication (env : Env) (p : RootBasePublication) : Bool :=
  validIdentity p.identity && isRootHash p.candidateRoot && p.committedAt ≤ maxSafeInteger &&
  p.entries.length ≤ publicationEntries &&
  p.entries.all (fun row => validateOperation row.operation) &&
  (p.paths.zip (p.paths.drop 1)).all (fun pair => jsLt pair.1 pair.2) &&
  env.encodedBytes p ≤ publicationEncodedBytes

def publicationMarker (env : Env) (p : RootBasePublication) : RootPublicationMarker :=
  ⟨p.identity, p.candidateRoot, p.committedAt, env.rootPublicationDigest p⟩

def publicationRows (env : Env) (p : RootBasePublication) : List Row :=
  p.entries.map (fun row => .operation row.operation) ++ [.rootPublication (publicationMarker env p)]

inductive Work
  | load
  | publication (p : RootBasePublication) (version bytes : Nat)
  | checkpoint
  | save
  deriving DecidableEq, Repr

/-- A link of `writeChain`, with the promise its caller holds. -/
structure Task where
  promise : Nat
  work : Work
  deriving DecidableEq, Repr

/-- Who goes on when `snapshotInsideQueue` has returned. -/
inductive AfterSnapshot
  | publication (p : RootBasePublication) (version : Nat)
  | done

/-- Who goes on when `flushPendingInsideQueue` has returned. -/
inductive AfterFlush
  | alreadyApplied
  | beforePublication (p : RootBasePublication) (version : Nat)
  | afterPublication
  | checkpoint
  | save
  | snapshot (version : Nat) (next : AfterSnapshot)

/-- What the running task awaits. -/
inductive Await
  | load
  | digest (p : RootBasePublication) (version : Nat)
  | commit (operations : List PendingBaseOperation) (next : BaseState) (after : AfterFlush)
  | snapshot (captured : BaseState) (version : Nat) (after : AfterSnapshot)
  | publish (rows : List Row) (next : BaseState) (version : Nat)

/-- `ObsetyncSyncBase`. `visible` is its `data` and `entries`; `disk` and `walSegments` are those of
the store. `published` lists the publications the store acknowledged and `resolved` the promises of
checkpoints and saves that were fulfilled. -/
structure Base where
  visible : BaseState
  dirty : Bool
  pendingOperations : List PendingBaseOperation
  pendingOperationOwners : Nat
  pendingOperationEstimatedBytes : Nat
  durable : BaseState
  durableVersion : Nat
  publicationBarriers : List Nat
  queuedPublications : Nat
  queuedPublicationBytes : Nat
  mutationVersion : Nat
  writable : Bool
  disk : Disk
  walSegments : Nat
  writeChain : List Task
  current : Option Await
  promises : Nat
  published : List Nat
  resolved : List Nat

namespace Base

def loaded (disk : Disk) (state : BaseState) (walSegments : Nat) : Base where
  visible := state
  dirty := false
  pendingOperations := []
  pendingOperationOwners := 0
  pendingOperationEstimatedBytes := 0
  durable := state
  durableVersion := 0
  publicationBarriers := []
  queuedPublications := 0
  queuedPublicationBytes := 0
  mutationVersion := 0
  writable := true
  disk := disk
  walSegments := walSegments
  writeChain := []
  current := none
  promises := 0
  published := []
  resolved := []

/-- `record`, which throws or queues the operation. -/
def record (env : Env) (s : Base) (op : SyncBaseOperation) : Option Base :=
  if !s.writable then none
  else if env.maxPendingOperations ≤ s.pendingOperationOwners then none
  else if !validateOperation op then none
  else
    let estimatedBytes := env.estimatePendingOperationBytes op
    if env.maxPendingOperationEstimatedBytes - s.pendingOperationEstimatedBytes < estimatedBytes then
      none
    else some { s with
      pendingOperationOwners := s.pendingOperationOwners + 1
      pendingOperationEstimatedBytes := s.pendingOperationEstimatedBytes + estimatedBytes
      mutationVersion := s.mutationVersion + 1
      pendingOperations := s.pendingOperations ++ [⟨s.mutationVersion + 1, op, estimatedBytes⟩]
      dirty := true }

end Base

/-- The synchronous mutators. -/
inductive Setter
  | setEntry (path hash : String) (mtime : Int) (size : Nat) (treeMtime : Option Int)
  | refreshLocalMetadata (path : String) (mtime : Int) (size : Nat)
  | removeEntry (path : String)
  | setTreeBaseRoot (hash : Option String)
  | setVerifiedBaseRequired (required : Bool)
  | setDiffPageCheckpoint (checkpoint : DiffPageCheckpoint)
  | clearDiffPageCheckpoint
  | approveBulkChange (vaultId : String) (total trackedDeletions approvedAt : Nat)
  | clearBulkChangeApproval
  | setLastSyncTimestamp (ts : Nat)
  deriving DecidableEq, Repr

def setEntryOperation (path hash : String) (mtime : Int) (size : Nat) (treeMtime : Option Int) :
    SyncBaseOperation :=
  .set path ⟨hash, mtime, size, treeMtime.filter (· ≠ mtime)⟩

/-- The entry `refreshLocalMetadata` writes over `entry`, if it writes one. -/
def refreshOperation (path : String) (mtime : Int) (size : Nat) (entry : Option BaseEntry) :
    Option SyncBaseOperation :=
  entry.bind fun e =>
    if e.mtime = mtime ∧ e.size = size then none
    else some (setEntryOperation path e.hash mtime size (some (e.treeMtime.getD e.mtime)))

def bulkChangeApprovalOf (env : Env) (vaultId : String) (total trackedDeletions approvedAt : Nat) :
    BulkChangeApproval :=
  ⟨vaultId, approvedAt, total, min maxSafeInteger (total + max 100 (env.onePercent total)),
    trackedDeletions⟩

/-- The argument checks of a mutator that come before `record`. -/
def Setter.admissible : Setter → Bool
  | .setDiffPageCheckpoint checkpoint => isDiffPageCheckpoint checkpoint
  | .approveBulkChange vaultId total trackedDeletions _ =>
    0 < utf16Length vaultId && utf16Length vaultId ≤ 4096 && total ≤ maxSafeInteger &&
      trackedDeletions ≤ maxSafeInteger && trackedDeletions ≤ total
  | _ => true

namespace Base

/-- What a mutator records, or `none` where it finds nothing to change. -/
def operationOf (env : Env) (s : Base) : Setter → Option SyncBaseOperation
  | .setEntry path hash mtime size treeMtime =>
    some (setEntryOperation path hash mtime size treeMtime)
  | .refreshLocalMetadata path mtime size =>
    refreshOperation path mtime size (s.visible.entries path)
  | .removeEntry path => some (.remove path)
  | .setTreeBaseRoot hash =>
    if s.visible.data.treeBaseRoot = hash ∧ s.publicationBarriers = [] then none
    else some (.treeRoot hash)
  | .setVerifiedBaseRequired required =>
    if s.visible.data.verifiedBaseRequired = required then none else some (.baseFence required)
  | .setDiffPageCheckpoint checkpoint => some (.diffPage (some checkpoint))
  | .clearDiffPageCheckpoint =>
    if s.visible.data.diffPageCheckpoint = none then none else some (.diffPage none)
  | .approveBulkChange vaultId total trackedDeletions approvedAt =>
    some (.bulkApproval (some (bulkChangeApprovalOf env vaultId total trackedDeletions approvedAt)))
  | .clearBulkChangeApproval =>
    if s.visible.data.bulkChangeApproval = none then none else some (.bulkApproval none)
  | .setLastSyncTimestamp ts => some (.timestamp ts)

/-- A mutator: it throws, or returns with the change visible and queued. -/
def setter (env : Env) (s : Base) (call : Setter) : Option Base :=
  if !call.admissible then none
  else
    match s.operationOf env call with
    | none => some s
    | some op =>
      (s.record env op).map fun s => { s with visible := applyBaseOperation s.visible op }

def enqueue (s : Base) (work : Work) : Base :=
  { s with writeChain := s.writeChain ++ [⟨s.promises, work⟩], promises := s.promises + 1 }

/-- The submission turn of `commitRootPublication`; `none` is an immediate rejection. -/
def commitRootPublication (env : Env) (s : Base) (p : RootBasePublication) : Option Base :=
  if !s.writable then none
  else if publicationQueuedRequests ≤ s.queuedPublications then none
  else if !validPublication env p then none
  else if publicationQueuedEncodedBytes - s.queuedPublicationBytes < env.encodedBytes p then none
  else some ({ s with
    queuedPublications := s.queuedPublications + 1
    queuedPublicationBytes := s.queuedPublicationBytes + env.encodedBytes p
    mutationVersion := s.mutationVersion + 1
    publicationBarriers := s.publicationBarriers ++ [s.mutationVersion + 1] }.enqueue
      (.publication p (s.mutationVersion + 1) (env.encodedBytes p)))

def removePublicationBarrier (s : Base) (version : Nat) : Base :=
  { s with publicationBarriers := s.publicationBarriers.erase version }

def finish (s : Base) : Base :=
  match s.writeChain with
  | [] => s
  | task :: chain =>
    let s := { s with writeChain := chain, current := none }
    match task.work with
    | .publication _ version bytes =>
      { s.removePublicationBarrier version with
        queuedPublications := s.queuedPublications - 1
        queuedPublicationBytes := s.queuedPublicationBytes - bytes }
    | _ => s

def resolve (s : Base) : Base :=
  { s.finish with resolved := (s.writeChain.head?.map Task.promise).toList ++ s.resolved }

/-- The rows of the publication, `next` and the commit. -/
def startPublication (env : Env) (s : Base) (p : RootBasePublication) (version : Nat) : Base :=
  match applyRows s.durable (publicationRows env p) with
  | none => s.finish
  | some next => { s with current := some (.publish (publicationRows env p) next version) }

def afterSnapshot (env : Env) (s : Base) : AfterSnapshot → Base
  | .publication p version => s.startPublication env p version
  | .done => s.resolve

/-- The operations that stand before the first publication barrier. -/
def flushable (s : Base) : List PendingBaseOperation :=
  match s.publicationBarriers with
  | [] => s.pendingOperations
  | barrier :: _ => s.pendingOperations.takeWhile (·.version < barrier)

/-- What follows a flush that has nothing more to write. -/
def afterFlush (env : Env) (s : Base) : AfterFlush → Base
  | .alreadyApplied => s.finish
  | .afterPublication => s.finish
  | .beforePublication p version =>
    if compactAfterSegments ≤ s.walSegments then
      { s with current := some (.snapshot s.durable s.durableVersion (.publication p version)) }
    else s.startPublication env p version
  | .checkpoint =>
    if compactAfterSegments ≤ s.walSegments then
      { s with current := some (.snapshot s.durable s.durableVersion .done) }
    else s.resolve
  | .save => { s with current := some (.snapshot s.durable s.durableVersion .done) }
  | .snapshot version next =>
    afterSnapshot env
      { s with dirty := s.durableVersion ≠ version || !s.pendingOperations.isEmpty } next

def rowsOf (operations : List PendingBaseOperation) : List Row :=
  operations.map fun row => .operation row.operation

def applyPending (state : BaseState) (operations : List PendingBaseOperation) : BaseState :=
  operations.foldl (fun st row => applyBaseOperation st row.operation) state

/-- One turn of the loop of `flushPendingInsideQueue`. -/
def flush (env : Env) (s : Base) (after : AfterFlush) : Base :=
  match s.flushable with
  | [] => s.afterFlush env after
  | row :: rest =>
    { s with
      pendingOperations := s.pendingOperations.drop (rest.length + 1)
      current := some (.commit (row :: rest) (applyPending s.durable (row :: rest)) after) }

def start (env : Env) (s : Base) : Base :=
  match s.current, s.writeChain with
  | none, task :: _ =>
    match task.work with
    | .load => { s with writable := false, current := some .load }
    | .publication p version _ =>
      if !s.writable then s.finish else { s with current := some (.digest p version) }
    | .checkpoint =>
      if !s.writable then s.finish
      else if s.pendingOperations = [] then s.resolve
      else s.flush env .checkpoint
    | .save =>
      if !s.writable then s.finish
      else if !s.dirty ∧ s.pendingOperations = [] then s.resolve
      else s.flush env .save
  | _, _ => s

def digested (env : Env) (s : Base) (p : RootBasePublication) (version : Nat) : Base :=
  let marker := publicationMarker env p
  if !validatePublicationMarker marker then s.finish
  else
    match s.durable.data.lastAppliedPublication with
    | none => s.flush env (.beforePublication p version)
    | some previous =>
      if previous.identity.scopeHash ≠ marker.identity.scopeHash then s.finish
      else if previous.identity.sequence = marker.identity.sequence then
        if previous ≠ marker then s.finish
        else (s.removePublicationBarrier version).flush env .alreadyApplied
      else if marker.identity.sequence < previous.identity.sequence then s.finish
      else s.flush env (.beforePublication p version)

end Base

/-- How an await ends: it is fulfilled, and the store tells how many segments it has; or it fails,
and a write may have landed all the same. -/
inductive Outcome
  | done (walSegments : Nat)
  | failed (landed : Bool)
  deriving DecidableEq, Repr

namespace Base

def poison (s : Base) : Base := { s with writable := false }

/-- The last turn of `load`. -/
def afterLoad (s : Base) (state : BaseState) (walSegments : Nat) : Base :=
  { s with
    durable := state
    durableVersion := 0
    visible := state
    pendingOperations := []
    pendingOperationOwners := 0
    pendingOperationEstimatedBytes := 0
    dirty := false
    mutationVersion := 0
    writable := true
    walSegments := walSegments }

def publicationDone (env : Env) (s : Base) (next : BaseState) (version : Nat) : Base :=
  { s.removePublicationBarrier version with
    durable := next
    durableVersion := version
    visible := applyPending next s.pendingOperations
    dirty := true
    published := (s.writeChain.head?.map Task.promise).toList ++ s.published }.flush env
      .afterPublication

def resume (env : Env) (s : Base) (outcome : Outcome) : Base :=
  match s.current, outcome with
  | none, _ => s
  | some .load, .done segments =>
    match s.disk.load with
    | none => s.finish
    | some state => (s.afterLoad state segments).finish
  | some .load, .failed _ => s.finish
  | some (.digest p version), .done _ => s.digested env p version
  | some (.digest _ _), .failed _ => s.finish
  | some (.commit operations next after), .done segments =>
    { s with
      disk := s.disk.commit (rowsOf operations)
      walSegments := segments
      durable := next
      durableVersion := (operations.getLast?.map PendingBaseOperation.version).getD 0
      pendingOperationOwners := s.pendingOperationOwners - operations.length
      pendingOperationEstimatedBytes :=
        s.pendingOperationEstimatedBytes - (operations.map PendingBaseOperation.estimatedBytes).sum }.flush env after
  | some (.commit operations _ _), .failed landed =>
    { s.poison with
      disk := if landed then s.disk.commit (rowsOf operations) else s.disk
      pendingOperations := operations ++ s.pendingOperations }.finish
  | some (.snapshot captured version after), .done segments =>
    { s with disk := ⟨captured, []⟩, walSegments := segments }.flush env (.snapshot version after)
  | some (.snapshot captured _ _), .failed landed =>
    { s.poison with disk := if landed then ⟨captured, []⟩ else s.disk }.finish
  | some (.publish rows next version), .done segments =>
    { s with disk := s.disk.commit rows, walSegments := segments }.publicationDone env next version
  | some (.publish rows _ _), .failed landed =>
    { s.poison with disk := if landed then s.disk.commit rows else s.disk }.finish

end Base

inductive Event
  | setter (call : Setter)
  | commitRootPublication (p : RootBasePublication)
  | checkpoint
  | save
  | load
  | start
  | resume (outcome : Outcome)

end Obsetync.SyncBase

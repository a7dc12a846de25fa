import Obsetync.Pull.Diff
import Obsetync.SyncBase.Single

/-! `pullPagedIfSupported` over the sync base. -/

namespace Obsetync.Pull
open SyncBase DiffPage

/-- Where `splitIgnored` puts a delta. An ignored upsert can untrack the path it was renamed from. -/
inductive Scoped
  | kept (delta : FileDelta)
  | ignoredDelete (path : String)
  | ignoredUpsert (untracked : Option String)
  deriving DecidableEq

def scope (isIgnored : String → Bool) : FileDelta → Scoped
  | .renamed path oldPath hash size mtimeMs =>
    if isIgnored path then .ignoredUpsert (some oldPath)
    else if isIgnored oldPath then .kept (.added path hash size mtimeMs)
    else .kept (.renamed path oldPath hash size mtimeMs)
  | .deleted path hash => if isIgnored path then .ignoredDelete path else .kept (.deleted path hash)
  | .added path hash size mtimeMs =>
    if isIgnored path then .ignoredUpsert none else .kept (.added path hash size mtimeMs)
  | .modified path hash size mtimeMs =>
    if isIgnored path then .ignoredUpsert none else .kept (.modified path hash size mtimeMs)

def Scoped.delta : Scoped → Option FileDelta
  | .kept delta => some delta
  | _ => none

def Scoped.untracked : Scoped → Option String
  | .kept _ => none
  | .ignoredDelete path => some path
  | .ignoredUpsert path => path

def Scoped.omitted : Scoped → Bool
  | .ignoredUpsert _ => true
  | _ => false

/-- `kept`, `ignoredDeletes` and `ignoredUpserts` of `splitIgnored`. -/
def keptOf (isIgnored : String → Bool) (deltas : List FileDelta) : List FileDelta :=
  deltas.filterMap fun delta => (scope isIgnored delta).delta

def ignoredDeletesOf (isIgnored : String → Bool) (deltas : List FileDelta) : List String :=
  deltas.filterMap fun delta => (scope isIgnored delta).untracked

def ignoredUpsertsOf (isIgnored : String → Bool) (deltas : List FileDelta) : Nat :=
  deltas.countP fun delta => (scope isIgnored delta).omitted

/-- The live guard of locally edited paths. -/
def shouldSkip (skipPaths : String → Bool) : FileDelta → Bool
  | .renamed path oldPath _ _ _ => skipPaths path || skipPaths oldPath
  | delta => skipPaths delta.path

/-- `applyDeltas` on its way: the deltas of each phase that are still open, the rename that is done
on disk and half done in the base, the downloads to retry, and what was put off. -/
structure Applying where
  renames : List FileDelta
  moved : Option FileDelta
  deletions : List FileDelta
  appliedDeletions : Nat
  content : List FileDelta
  failed : List FileDelta
  deferred : List FileDelta
  downloaded : Nat
  bytesDownloaded : Nat
  kept : Nat
  ignoredUpserts : Nat
  nextCursor : Bytes

def FileDelta.isKind (action : UInt8) (delta : FileDelta) : Bool := delta.action = action

/-- The partition at the start of `applyDeltas`. -/
def Applying.init (skipPaths : String → Bool) (kept : List FileDelta) (ignoredUpserts : Nat)
    (nextCursor : Bytes) : Applying :=
  let taken := kept.filter fun delta => !shouldSkip skipPaths delta
  { renames := taken.filter (FileDelta.isKind 4)
    moved := none
    deletions := taken.filter (FileDelta.isKind 3)
    appliedDeletions := 0
    content := taken.filter (FileDelta.isKind 2) ++ taken.filter (FileDelta.isKind 1)
    failed := []
    deferred := kept.filter (shouldSkip skipPaths)
    downloaded := 0
    bytesDownloaded := 0
    kept := kept.length
    ignoredUpserts := ignoredUpserts
    nextCursor := nextCursor }

def Applying.done (work : Applying) : Bool :=
  work.renames.isEmpty && work.moved.isNone && work.deletions.isEmpty && work.content.isEmpty &&
    work.failed.isEmpty

inductive Stage
  | fetching
  | paged (deltas : List FileDelta) (nextCursor : Bytes)
  | applying (work : Applying)
  | rooting
  | closing

/-- The locals of `pullPagedIfSupported`: `recovered` is that a checkpoint was there at the start,
`await` the promise of the checkpoint or save it waits for. `stalledAt` counts the calls there were
when the page came that is worked on, or the first page that was left incomplete. -/
structure Paged where
  vaultId : String
  localRootHash : Option FileHash
  recovered : Bool
  toRoot : Option FileHash
  cursor : Bytes
  complete : Bool
  recordsSeen : Nat
  filesApplied : Nat
  bytesTotal : Nat
  downloaded : Nat
  bytesDownloaded : Nat
  deltasHadMtime : Bool
  deferredCount : Nat
  remoteOmissionCount : Nat
  durableCursorAllowed : Bool
  stage : Stage
  await : Option Nat
  stalledAt : Nat

def Paged.fromRoot (pull : Paged) : FileHash := pull.localRootHash.getD zeroRoot

def Paged.fresh (vaultId : String) (localRootHash : Option FileHash) : Paged where
  vaultId := vaultId
  localRootHash := localRootHash
  recovered := false
  toRoot := none
  cursor := []
  complete := false
  recordsSeen := 0
  filesApplied := 0
  bytesTotal := 0
  downloaded := 0
  bytesDownloaded := 0
  deltasHadMtime := true
  deferredCount := 0
  remoteOmissionCount := 0
  durableCursorAllowed := true
  stage := .fetching
  await := none
  stalledAt := 0

def Paged.resumed (localRootHash : Option FileHash) (checkpoint : DiffPageCheckpoint)
    (toRoot : FileHash) (cursor : Bytes) : Paged where
  vaultId := checkpoint.vaultId
  localRootHash := localRootHash
  recovered := true
  toRoot := some toRoot
  cursor := cursor
  complete := checkpoint.complete
  recordsSeen := checkpoint.recordsSeen
  filesApplied := checkpoint.filesApplied
  bytesTotal := checkpoint.bytesTotal
  downloaded := checkpoint.downloaded
  bytesDownloaded := checkpoint.bytesDownloaded
  deltasHadMtime := checkpoint.deltasHadMtime
  deferredCount := 0
  remoteOmissionCount := 0
  durableCursorAllowed := true
  stage := if checkpoint.complete then .rooting else .fetching
  await := none
  stalledAt := 0

/-- The ignore rules of the vault, and the diffs of the server by vault, source and target. -/
structure Setting where
  env : Env
  isIgnored : String → Bool
  diff : String → FileHash → FileHash → Diff

/-- The entries there were when the first page of a diff came. -/
structure Start where
  vaultId : String
  fromRoot : FileHash
  toRoot : FileHash
  entries : String → Option BaseEntry

structure System where
  world : World
  pull : Option Paged
  starts : List Start

/-- How a download ends. `present` is a file that is on disk as the base has it; `written` tells
how many bytes were transferred for it, if any. -/
inductive ContentOutcome
  | deferred
  | failed
  | present (mtime : Int) (size : Nat)
  | written (mtime : Int) (size : Nat) (bytes : Option Nat)

inductive Event
  | start
  | resume (outcome : Outcome)
  | crash (walSegments : Nat)
  | begin (vaultId : String) (localRootHash : Option FileHash) (supported : Bool)
  | settled
  | throws
  | page (toRoot : FileHash) (count : Nat)
  | noPage
  | admitPage (skipPaths : String → Bool)
  | deferRename
  | moveOut
  | moveIn (mtime : Int) (size : Nat)
  | deferDelete
  | delete
  | content (index : Nat) (outcome : ContentOutcome)
  | batch
  | retry (outcome : ContentOutcome)
  | pageDone (hadMtime : Bool)
  | root (timestamp : Nat)
  | returns

/-- The mutators in turn, up to the first that throws. -/
def perform (env : Env) (w : World) : List Setter → World × Bool
  | [] => (w, true)
  | call :: calls =>
    match w.base.setter env call with
    | none => (w, false)
    | some _ => perform env (w.step env (.setter call)) calls

/-- `setEntry` with the content of a delta and the file's local metadata. -/
def setContent (delta : FileDelta) (mtime : Int) (size : Nat) : List Setter :=
  match contentOf delta with
  | none => []
  | some (hash, _, mtimeMs) =>
    [.setEntry delta.path (hexEncode hash.val) mtime size (some mtimeMs.toNat)]

def cacheHit (entries : String → Option BaseEntry) (delta : FileDelta) (mtime : Int) (size : Nat) :
    Bool :=
  match contentOf delta, entries delta.path with
  | some (hash, _, _), some entry =>
    entry.hash = hexEncode hash.val && entry.mtime = mtime && entry.size = size
  | _, _ => false

/-- `getTreeMtime` is the one of the delta. -/
def treeMtimeCurrent (entries : String → Option BaseEntry) (delta : FileDelta) : Bool :=
  match contentOf delta, entries delta.path with
  | some (_, _, mtimeMs), some entry => entry.treeMtime.getD entry.mtime = mtimeMs.toNat
  | _, _ => false

/-- The mutators of a download that ends so, or `none` where it does not end so. -/
def contentCalls (entries : String → Option BaseEntry) (delta : FileDelta) :
    ContentOutcome → Option (List Setter)
  | .deferred => some []
  | .failed => some []
  | .present mtime size =>
    if !cacheHit entries delta mtime size then none
    else if treeMtimeCurrent entries delta then some []
    else some (setContent delta mtime size)
  | .written mtime size _ => some (setContent delta mtime size)

def ContentOutcome.applied : ContentOutcome → Bool
  | .deferred => false
  | .failed => false
  | _ => true

/-- What `applyDeltas` keeps of a download: a delta that was put off, one to retry, the bytes. -/
def Applying.settle (work : Applying) (delta : FileDelta) (retried : Bool) :
    ContentOutcome → Bool → Applying
  | .deferred, _ => { work with deferred := work.deferred ++ [delta] }
  | .failed, _ =>
    if retried then { work with deferred := work.deferred ++ [delta] }
    else { work with failed := work.failed ++ [delta] }
  | .present _ _, true => work
  | .written _ _ none, true => work
  | .written _ _ (some bytes), true =>
    { work with downloaded := work.downloaded + 1, bytesDownloaded := work.bytesDownloaded + bytes }
  | _, false =>
    if retried then { work with deferred := work.deferred ++ [delta] }
    else { work with failed := work.failed ++ [delta] }

def sizeOf : FileDelta → Nat
  | .added _ _ size _ => size.toNat
  | .modified _ _ size _ => size.toNat
  | .renamed _ _ _ size _ => size.toNat
  | .deleted _ _ => 0

/-- The checkpoint behind the page that `work` has applied. -/
def Paged.nextCheckpoint (pull : Paged) (toRoot : FileHash) : DiffPageCheckpoint where
  vaultId := pull.vaultId
  fromRoot := hexEncode pull.fromRoot.val
  toRoot := hexEncode toRoot.val
  nextCursorHex := diffCursorToHex pull.cursor
  complete := pull.complete
  recordsSeen := pull.recordsSeen
  filesApplied := pull.filesApplied
  bytesTotal := pull.bytesTotal
  downloaded := pull.downloaded
  bytesDownloaded := pull.bytesDownloaded
  deltasHadMtime := pull.deltasHadMtime

def Paged.afterPage (pull : Paged) (work : Applying) (hadMtime : Bool) : Paged :=
  { pull with
    deferredCount := pull.deferredCount + work.deferred.length
    downloaded := pull.downloaded + work.downloaded
    bytesDownloaded := pull.bytesDownloaded + work.bytesDownloaded
    filesApplied := pull.filesApplied + (work.kept - work.deferred.length)
    deltasHadMtime := hadMtime && pull.deltasHadMtime
    durableCursorAllowed :=
      pull.durableCursorAllowed && work.deferred.isEmpty && work.ignoredUpserts = 0
    cursor := work.nextCursor
    complete := work.nextCursor.isEmpty
    stage := if work.nextCursor.isEmpty then .rooting else .fetching }

namespace System

def calling (env : Env) (s : System) (calls : List Setter) (next : World → System) : System :=
  match perform env s.world calls with
  | (w, true) => next w
  | (w, false) => { s with world := w, pull := none }

def awaitCheckpoint (s : System) (w : World) (pull : Paged) : System :=
  { s with world := w.enqueue .checkpoint, pull := some { pull with await := some w.base.promises } }

def goOn (s : System) (pull : Paged) : System := { s with pull := some pull }

def begin (env : Env) (s : System) (vaultId : String) (localRootHash : Option FileHash)
    (supported : Bool) : System :=
  let found := s.world.base.visible.data.diffPageCheckpoint
  if !supported then
    if found.isNone then s
    else s.calling env [.clearDiffPageCheckpoint] fun w => { s with world := w.enqueue .checkpoint }
  else
    match found.filter isDiffPageCheckpoint with
    | none => s.goOn (.fresh vaultId localRootHash)
    | some checkpoint =>
      if checkpoint.vaultId ≠ vaultId ∨
          checkpoint.fromRoot ≠ hexEncode (localRootHash.getD zeroRoot).val then
        s.calling env [.clearDiffPageCheckpoint] fun w =>
          s.awaitCheckpoint w (.fresh vaultId localRootHash)
      else
        match rootFromHex checkpoint.toRoot, diffCursorFromHex checkpoint.nextCursorHex with
        | some toRoot, some cursor => s.goOn (.resumed localRootHash checkpoint toRoot cursor)
        | _, _ => s

/-- A page has come: the server cuts it from the records behind the cursor, for the target of the
pull or, on a first page, for the one it has now. The fence of a first sync is written before. -/
def page (st : Setting) (s : System) (pull : Paged) (target : FileHash) (count : Nat) : System :=
  let toRoot := pull.toRoot.getD target
  let diff := st.diff pull.vaultId pull.fromRoot toRoot
  match diff.place pull.fromRoot toRoot pull.cursor with
  | none => { s with pull := none }
  | some start =>
    let rest := diff.records.drop start
    let nextCursor := cursorAfter pull.fromRoot toRoot [] (rest.take (count + 1))
      (rest.drop (count + 1))
    let pull' := { pull with
      toRoot := some toRoot
      stage := .paged (rest.take (count + 1)) nextCursor
      stalledAt := if pull.durableCursorAllowed then s.world.calls.length else pull.stalledAt }
    let s := if pull.toRoot.isNone then { s with
        starts := s.starts ++ [⟨pull.vaultId, pull.fromRoot, toRoot, s.world.base.visible.entries⟩] }
      else s
    if pull.localRootHash.isNone ∧ !s.world.base.visible.data.verifiedBaseRequired then
      s.calling st.env [.setVerifiedBaseRequired true] fun w => s.awaitCheckpoint w pull'
    else s.goOn pull'

/-- The ignored deltas of a page are left out, and `applyDeltas` starts. -/
def admitPage (st : Setting) (s : System) (pull : Paged) (deltas : List FileDelta) (nextCursor : Bytes)
    (skipPaths : String → Bool) : System :=
  let ignoredUpserts := ignoredUpsertsOf st.isIgnored deltas
  s.calling st.env ((ignoredDeletesOf st.isIgnored deltas).map Setter.removeEntry) fun w =>
    { s with world := w }.goOn { pull with
      recordsSeen := pull.recordsSeen + deltas.length
      bytesTotal := pull.bytesTotal + (deltas.map sizeOf).sum
      remoteOmissionCount := pull.remoteOmissionCount + ignoredUpserts
      stage := .applying (.init skipPaths (keptOf st.isIgnored deltas) ignoredUpserts nextCursor) }

/-- The deletions are done: one checkpoint for all of them. -/
def afterDelete (s : System) (w : World) (pull : Paged) (work : Applying) : System :=
  if work.deletions.isEmpty ∧ 0 < work.appliedDeletions then
    s.awaitCheckpoint w { pull with stage := .applying work }
  else { s with world := w }.goOn { pull with stage := .applying work }

/-- A download ends; one that was retried and applied has a checkpoint of its own. -/
def download (st : Setting) (s : System) (pull : Paged) (work : Applying) (delta : FileDelta)
    (retried : Bool) (outcome : ContentOutcome) : System :=
  match contentCalls s.world.base.visible.entries delta outcome with
  | none => s
  | some calls =>
    let (w, returned) := perform st.env s.world calls
    let pull' := { pull with stage := .applying (work.settle delta retried outcome returned) }
    if retried && returned && outcome.applied then s.awaitCheckpoint w pull'
    else { s with world := w }.goOn pull'

def apply (st : Setting) (s : System) (pull : Paged) (work : Applying) : Event → System
  | .deferRename =>
    match work.moved, work.renames with
    | none, delta :: renames => s.goOn { pull with stage := .applying { work with
        renames := renames, deferred := work.deferred ++ [delta] } }
    | _, _ => s
  | .moveOut =>
    match work.moved, work.renames with
    | none, delta :: renames =>
      s.calling st.env [.removeEntry delta.oldPath] fun w =>
        { s with world := w }.goOn { pull with stage := .applying { work with
          renames := renames, moved := some delta } }
    | _, _ => s
  | .moveIn mtime size =>
    match work.moved with
    | some delta =>
      s.calling st.env (setContent delta mtime size) fun w =>
        s.awaitCheckpoint w { pull with stage := .applying { work with moved := none } }
    | none => s
  | .deferDelete =>
    match work.renames, work.moved, work.deletions with
    | [], none, delta :: deletions => s.afterDelete s.world pull { work with
        deletions := deletions, deferred := work.deferred ++ [delta] }
    | _, _, _ => s
  | .delete =>
    match work.renames, work.moved, work.deletions with
    | [], none, delta :: deletions =>
      s.calling st.env [.removeEntry delta.path] fun w =>
        s.afterDelete w pull { work with
          deletions := deletions, appliedDeletions := work.appliedDeletions + 1 }
    | _, _, _ => s
  | .content index outcome =>
    match work.renames, work.moved, work.deletions, work.content[index]? with
    | [], none, [], some delta =>
      s.download st pull { work with content := work.content.eraseIdx index } delta false outcome
    | _, _, _, _ => s
  | .batch =>
    match work.renames, work.moved, work.deletions with
    | [], none, [] => s.awaitCheckpoint s.world pull
    | _, _, _ => s
  | .retry outcome =>
    match work.renames, work.moved, work.deletions, work.content, work.failed with
    | [], none, [], [], delta :: failed =>
      s.download st pull { work with failed := failed } delta true outcome
    | _, _, _, _, _ => s
  | .pageDone hadMtime =>
    match pull.toRoot with
    | none => s
    | some toRoot =>
      if !work.done then s
      else
        let pull' := pull.afterPage work hadMtime
        let calls := if pull'.durableCursorAllowed then
          [Setter.setDiffPageCheckpoint (pull'.nextCheckpoint toRoot)] else []
        s.calling st.env calls fun w => s.awaitCheckpoint w pull'
  | _ => s

/-- The end of the pull: the checkpoint stays only if nothing was left out. -/
def close (st : Setting) (s : System) (pull : Paged) (timestamp : Nat) : System :=
  let pull' := { pull with stage := .closing }
  if 0 < pull.deferredCount ∨ 0 < pull.remoteOmissionCount then
    s.calling st.env [.setLastSyncTimestamp timestamp, .clearDiffPageCheckpoint] fun w =>
      { s with world := w.enqueue .save, pull := some { pull' with await := some w.base.promises } }
  else
    s.calling st.env [.setLastSyncTimestamp timestamp] fun w => s.awaitCheckpoint w pull'

/-- One event of a pull that waits for no promise of the sync base. -/
def advance (st : Setting) (s : System) (pull : Paged) (event : Event) : System :=
  match pull.stage, event with
  | .fetching, .page toRoot count => s.page st pull toRoot count
  | .fetching, .noPage =>
    if pull.recovered then
      s.calling st.env [.clearDiffPageCheckpoint] fun w =>
        { s with world := w.enqueue .checkpoint, pull := none }
    else { s with pull := none }
  | .paged deltas nextCursor, .admitPage skipPaths => s.admitPage st pull deltas nextCursor skipPaths
  | .applying work, event => s.apply st pull work event
  | .rooting, .root timestamp => s.close st pull timestamp
  | .closing, .returns => { s with pull := none }
  | _, _ => s

/-- A turn of the sync base's queue, a crash, or an event of the pull. -/
def step (st : Setting) (s : System) : Event → System
  | .start => { s with world := s.world.step st.env .start }
  | .resume outcome => { s with world := s.world.step st.env (.resume outcome) }
  | .crash walSegments =>
    match s.world.base.disk.load with
    | none => s
    | some state =>
      { s with world := World.loaded s.world.base.disk state walSegments, pull := none }
  | .throws => { s with pull := none }
  | .begin vaultId localRootHash supported =>
    if s.pull.isSome then s else s.begin st.env vaultId localRootHash supported
  | .settled =>
    match s.pull with
    | none => s
    | some pull =>
      if pull.await.all (· ∈ s.world.base.resolved) then s.goOn { pull with await := none } else s
  | event =>
    match s.pull with
    | none => s
    | some pull => if pull.await.isSome then s else s.advance st pull event

end System

/-- The runs from a sync base without a checkpoint. -/
inductive Reachable (st : Setting) : System → Prop
  | loaded (disk : Disk) (state : BaseState) (walSegments : Nat) (h : disk.load = some state)
    (hfresh : state.data.diffPageCheckpoint = none) :
    Reachable st ⟨World.loaded disk state walSegments, none, []⟩
  | step (s : System) (event : Event) (h : Reachable st s) : Reachable st (s.step st event)

end Obsetync.Pull

import Obsetync.VaultPath

namespace Obsetync.SyncBase

structure BaseEntry where
  hash : String
  mtime : Int
  size : Nat
  treeMtime : Option Int
  deriving DecidableEq, Repr

structure RootPublicationIdentity where
  scopeHash : String
  sequence : Nat
  mutationId : String
  requestHash : String
  deriving DecidableEq, Repr

inductive RootBasePublicationEntry
  | upsert (path hash : String) (mtime : Int) (size : Nat) (treeMtime : Option Int)
  | delete (path : String)
  deriving DecidableEq, Repr

structure RootBasePublication where
  identity : RootPublicationIdentity
  candidateRoot : String
  entries : List RootBasePublicationEntry
  committedAt : Nat
  deriving DecidableEq, Repr

structure RootPublicationMarker where
  identity : RootPublicationIdentity
  candidateRoot : String
  committedAt : Nat
  payloadHash : String
  deriving DecidableEq, Repr

structure BulkChangeApproval where
  vaultId : String
  approvedAt : Nat
  observedChanges : Nat
  changeLimit : Nat
  trackedDeletionLimit : Nat
  deriving DecidableEq, Repr

structure DiffPageCheckpoint where
  vaultId : String
  fromRoot : String
  toRoot : String
  nextCursorHex : Option String
  complete : Bool
  recordsSeen : Nat
  filesApplied : Nat
  bytesTotal : Nat
  downloaded : Nat
  bytesDownloaded : Nat
  deltasHadMtime : Bool
  deriving DecidableEq, Repr

structure SyncBaseData where
  lastSyncTimestamp : Nat
  lastAppliedPublication : Option RootPublicationMarker
  treeBaseRoot : Option String
  verifiedBaseRequired : Bool
  diffPageCheckpoint : Option DiffPageCheckpoint
  bulkChangeApproval : Option BulkChangeApproval
  deriving DecidableEq, Repr

/-- The metadata and the entries by path. -/
structure BaseState where
  data : SyncBaseData
  entries : String → Option BaseEntry

inductive SyncBaseOperation
  | set (path : String) (entry : BaseEntry)
  | remove (path : String)
  | timestamp (value : Nat)
  | treeRoot (value : Option String)
  | baseFence (value : Bool)
  | diffPage (value : Option DiffPageCheckpoint)
  | bulkApproval (value : Option BulkChangeApproval)
  deriving DecidableEq, Repr

/-- A row of the store: an ordinary operation, or the marker that ends the rows of a publication. -/
inductive Row
  | operation (op : SyncBaseOperation)
  | rootPublication (marker : RootPublicationMarker)
  deriving DecidableEq, Repr

def validEntry (entry : BaseEntry) : Bool := isRootHash entry.hash && entry.size ≤ maxSafeInteger

def isBulkChangeApproval (row : BulkChangeApproval) : Bool :=
  0 < utf16Length row.vaultId && utf16Length row.vaultId ≤ 4096 &&
  row.approvedAt ≤ maxSafeInteger && row.observedChanges ≤ maxSafeInteger &&
  row.changeLimit ≤ maxSafeInteger && row.trackedDeletionLimit ≤ maxSafeInteger &&
  row.observedChanges ≤ row.changeLimit && row.trackedDeletionLimit ≤ row.observedChanges

def isDiffPageCheckpoint (row : DiffPageCheckpoint) : Bool :=
  0 < utf16Length row.vaultId && utf16Length row.vaultId ≤ 4096 &&
  isRootHash row.fromRoot && isRootHash row.toRoot &&
  [row.recordsSeen, row.filesApplied, row.bytesTotal, row.downloaded, row.bytesDownloaded].all
    (· ≤ maxSafeInteger) &&
  match row.nextCursorHex with
  | none => row.complete
  | some cursor =>
    !row.complete && 0 < cursor.toList.length && cursor.toList.length ≤ 16532 &&
      cursor.toList.length % 2 = 0 && cursor.toList.all isLowerHex

/-- `validateOperation`, which throws or gives the operation back. -/
def validateOperation : SyncBaseOperation → Bool
  | .set path entry => isSafeVaultPath path && validEntry entry
  | .remove path => isSafeVaultPath path
  | .timestamp value => value ≤ maxSafeInteger
  | .treeRoot value => value.all isRootHash
  | .baseFence _ => true
  | .diffPage value => value.all isDiffPageCheckpoint
  | .bulkApproval value => value.all isBulkChangeApproval

def validIdentity (identity : RootPublicationIdentity) : Bool :=
  isRootHash identity.scopeHash &&
  1 ≤ identity.sequence && identity.sequence ≤ maxSafeInteger &&
  identity.mutationId.toList.length = 32 && identity.mutationId.toList.all isLowerHex &&
  isRootHash identity.requestHash

def validatePublicationMarker (marker : RootPublicationMarker) : Bool :=
  validIdentity marker.identity && isRootHash marker.candidateRoot &&
  marker.committedAt ≤ maxSafeInteger && isRootHash marker.payloadHash

def applyBaseOperation (state : BaseState) : SyncBaseOperation → BaseState
  | .set path entry => { state with entries := Function.update state.entries path (some entry) }
  | .remove path => { state with entries := Function.update state.entries path none }
  | .timestamp value => { state with data := { state.data with lastSyncTimestamp := value } }
  | .treeRoot value => { state with data := { state.data with treeBaseRoot := value } }
  | .baseFence value => { state with data := { state.data with verifiedBaseRequired := value } }
  | .diffPage value => { state with data := { state.data with diffPageCheckpoint := value } }
  | .bulkApproval value => { state with data := { state.data with bulkChangeApproval := value } }

/-- The marker of a publication may follow the applied one: the same scope and a later sequence. -/
def mayFollow (previous : Option RootPublicationMarker) (marker : RootPublicationMarker) : Bool :=
  previous.all fun p =>
    p.identity.scopeHash = marker.identity.scopeHash && p.identity.sequence < marker.identity.sequence

def applyMarker (state : BaseState) (marker : RootPublicationMarker) : BaseState :=
  { state with data := { state.data with
      lastAppliedPublication := some marker
      treeBaseRoot := some marker.candidateRoot
      verifiedBaseRequired := false
      lastSyncTimestamp := marker.committedAt } }

/-- `applyBaseOperation` on a row of the store; it throws on a marker out of order. -/
def applyRow (state : BaseState) : Row → Option BaseState
  | .operation op => some (applyBaseOperation state op)
  | .rootPublication marker =>
    if mayFollow state.data.lastAppliedPublication marker then some (applyMarker state marker)
    else none

def applyRows (state : BaseState) (rows : List Row) : Option BaseState := rows.foldlM applyRow state

def validateRow : Row → Bool
  | .operation op => validateOperation op
  | .rootPublication marker => validatePublicationMarker marker

/-- What the segmented store holds: a snapshot, and the rows behind it. -/
structure Disk where
  snapshot : BaseState
  rows : List Row

def Disk.load (disk : Disk) : Option BaseState :=
  if disk.rows.all validateRow then applyRows disk.snapshot disk.rows else none

def Disk.commit (disk : Disk) (rows : List Row) : Disk := { disk with rows := disk.rows ++ rows }

end Obsetync.SyncBase

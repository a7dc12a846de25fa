import Obsetync.Avl
import Obsetync.Journal.Record

namespace Obsetync.Journal

abbrev Endpoints := Avl.Tree JsString (Avl.Tree JsString Unit)

structure JournalIndex where
  ordered : Avl.Tree JsString JournalRecord := .nil
  normalByPath : Avl.Tree JsString JsString := .nil
  groupsByEndpoint : Endpoints := .nil

def addEndpoint (endpoints : Endpoints) (path : String) (key : JsString) : Endpoints :=
  endpoints.insert (utf16Units path) (((endpoints.get (utf16Units path)).getD .nil).insert key ())

namespace JournalIndex

def records (index : JournalIndex) : List JournalRecord := index.ordered.toList.map Prod.snd

def hasPath (index : JournalIndex) (path : String) : Bool :=
  (index.normalByPath.get (utf16Units path)).isSome ||
    (index.groupsByEndpoint.get (utf16Units path)).isSome

def insertRecord (index : JournalIndex) (key : JsString) (record : JournalRecord) : JournalIndex :=
  match record with
  | .entry entry =>
    { index with
      ordered := index.ordered.insert key record
      normalByPath := index.normalByPath.insert (utf16Units entry.path) key }
  | .rename entry oldPending newPending =>
    let endpoints := index.groupsByEndpoint
    let endpoints := if oldPending then addEndpoint endpoints (entry.oldPath.getD "") key else endpoints
    let endpoints := if newPending then addEndpoint endpoints entry.path key else endpoints
    { index with ordered := index.ordered.insert key record, groupsByEndpoint := endpoints }

def appended (entry : JournalEntry) : JournalRecord :=
  if entry.action = .renamed then .rename entry true true else .entry entry

def append (index : JournalIndex) (value : JournalEntry) : Except Failure JournalIndex := do
  let entry ← validateJournalEntry value
  let record := appended entry
  let key := journalRecordKey record
  if entry.action = .renamed then
    match index.ordered.get key with
    | some previous =>
      if previous.value ≠ entry then invalid "contradicting journal rename generation" else .ok index
    | none => .ok (index.insertRecord key record)
  else
    match index.normalByPath.get (utf16Units entry.path) with
    | none => .ok (index.insertRecord key record)
    | some previousKey =>
      match index.ordered.get previousKey with
      | none => .error .typeError
      | some previous =>
        if entry.id < previous.id then .ok index
        else if previous.id = entry.id then
          if previous.value ≠ entry then invalid "contradicting journal path generation" else .ok index
        else .ok (insertRecord { index with ordered := index.ordered.remove previousKey } key record)

def addSnapshotRecord (index : JournalIndex) (value : JournalRecord) : Except Failure JournalIndex := do
  let record ← snapshotRecord value
  let key := journalRecordKey record
  let duplicate := match record with
    | .entry entry => (index.normalByPath.get (utf16Units entry.path)).isSome
    | .rename .. => false
  if (index.ordered.get key).isSome || duplicate then invalid "duplicate journal snapshot identity"
  else .ok (index.insertRecord key record)

def removeEndpoint (index : JournalIndex) (path : String) (key : JsString) : Except Failure Endpoints :=
  match index.groupsByEndpoint.get (utf16Units path) with
  | none => .error .typeError
  | some groups =>
    let remaining := groups.remove key
    .ok (if remaining.size ≠ 0 then index.groupsByEndpoint.insert (utf16Units path) remaining
      else index.groupsByEndpoint.remove (utf16Units path))

def settled (path : String) (entry : JournalEntry) (oldPending newPending : Bool) : JournalRecord :=
  .rename entry (oldPending && entry.oldPath ≠ some path) (newPending && entry.path ≠ path)

def pending : JournalRecord → Bool
  | .entry _ => true
  | .rename _ oldPending newPending => oldPending || newPending

def settleGroup (index : JournalIndex) (path : String) (key : JsString) (updated : JournalRecord) :
    Except Failure JournalIndex := do
  let endpoints ← index.removeEndpoint path key
  return { index with
    ordered := if pending updated then index.ordered.insert key updated else index.ordered.remove key
    groupsByEndpoint := endpoints }

def walkGroups (path : String) (throughId : Nat) :
    JournalIndex → List JsString → Except Failure (List JournalIndex)
  | _, [] => .ok []
  | current, key :: keys =>
    match current.ordered.get key with
    | none => .error .typeError
    | some record =>
      if throughId < record.id then .ok []
      else match record with
        | .entry _ => invalid "invalid journal endpoint index"
        | .rename entry oldPending newPending => do
          let next ← current.settleGroup path key (settled path entry oldPending newPending)
          return next :: (← walkGroups path throughId next keys)

def groupKeys (index : JournalIndex) (path : String) : List JsString :=
  match index.groupsByEndpoint.get (utf16Units path) with
  | none => []
  | some groups => groups.toList.map Prod.fst

def walkAcknowledgement (index : JournalIndex) (path : String) (throughId : Nat) :
    Except Failure (List JournalIndex) :=
  match index.normalByPath.get (utf16Units path) with
  | none => walkGroups path throughId index (index.groupKeys path)
  | some normalKey =>
    match index.ordered.get normalKey with
    | none => .error .typeError
    | some record =>
      if record.id ≤ throughId then do
        let current := { index with
          ordered := index.ordered.remove normalKey
          normalByPath := index.normalByPath.remove (utf16Units path) }
        return current :: (← walkGroups path throughId current (index.groupKeys path))
      else walkGroups path throughId index (index.groupKeys path)

end JournalIndex

def validWatermark (path : String) (throughId : Nat) : Bool :=
  isSafeVaultPath path && 0 < throughId && throughId < maxSafeInteger

def JournalIndex.acknowledgeSteps (index : JournalIndex) (path : String) (throughId : Nat) :
    Except Failure (List JournalIndex) :=
  if !validWatermark path throughId then invalid "invalid journal acknowledgement watermark"
  else index.walkAcknowledgement path throughId

def Listed (endpoints : Endpoints) (path : String) (key : JsString) : Prop :=
  ∃ groups, endpoints.get (utf16Units path) = some groups ∧ groups.get key = some ()

structure EndpointsSorted (endpoints : Endpoints) : Prop where
  paths : endpoints.Sorted
  keys : ∀ path groups, endpoints.get (utf16Units path) = some groups → groups.Sorted

/-- The record waits for an acknowledgement of the path as one of its endpoints. -/
def JournalRecord.PendingAt : JournalRecord → String → Prop
  | .entry _, _ => False
  | .rename row oldPending newPending, path =>
    oldPending = true ∧ row.oldPath = some path ∨ newPending = true ∧ row.path = path

/-- The three indexes describe the same records. -/
structure Linked (index : JournalIndex) : Prop where
  ordered : index.ordered.Sorted
  normal : index.normalByPath.Sorted
  groups : EndpointsSorted index.groupsByEndpoint
  record : ∀ key record, index.ordered.get key = some record →
    journalRecordKey record = key ∧ record.Valid
  normal_iff : ∀ path key, index.normalByPath.get (utf16Units path) = some key ↔
    ∃ entry, index.ordered.get key = some (.entry entry) ∧ entry.path = path
  group_iff : ∀ path key, Listed index.groupsByEndpoint path key ↔
    ∃ record, index.ordered.get key = some record ∧ record.PendingAt path

def Holds (index : JournalIndex) (record : JournalRecord) : Prop :=
  index.ordered.get (journalRecordKey record) = some record

end Obsetync.Journal

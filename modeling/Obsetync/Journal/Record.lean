import Obsetync.VaultPath
import Obsetync.Fallible

namespace Obsetync.Journal

/-- A JS string is the sequence of its UTF-16 code units and is compared by them. -/
abbrev JsString := List Nat

def charUnits (c : Char) : JsString :=
  if c.toNat < 0x10000 then [c.toNat]
  else [0xD800 + (c.toNat - 0x10000) / 0x400, 0xDC00 + (c.toNat - 0x10000) % 0x400]

/-- The last `width` decimal digits of a number as code units. -/
def digits : Nat → Nat → JsString
  | 0, _ => []
  | width + 1, n => (48 + n / 10 ^ width % 10) :: digits width n

inductive Code where
  | corrupt
  | recoveryRequired
  | limit
  deriving DecidableEq, Repr

/-- What a journal call is rejected with: a `JournalRecoveryError`, an `Error` with a text only,
the `TypeError` of a missing record, or what the store failed with. -/
inductive Failure where
  | recovery (code : Code) (message : String)
  | plain (message : String)
  | typeError
  | store
  deriving DecidableEq, Repr

abbrev invalid {α : Type} (message : String) : Except Failure α :=
  .error (.recovery .corrupt message)

inductive Action where
  | created
  | modified
  | deleted
  | renamed
  deriving DecidableEq, Repr

/-- A finite JS number is the rational it stands for. -/
structure NewJournalEntry where
  action : Action
  path : String
  oldPath : Option String := none
  ts : ℚ
  hash : Option String := none
  mtime : Option ℚ := none
  size : Option Nat := none
  deriving DecidableEq

structure JournalEntry extends NewJournalEntry where
  id : Nat
  deriving DecidableEq

def NewJournalEntry.withId (entry : NewJournalEntry) (id : Nat) : JournalEntry := { entry with id }

def hasSourceMetadata (entry : NewJournalEntry) : Bool :=
  entry.hash.isSome || entry.mtime.isSome || entry.size.isSome

def validSourceMetadata (entry : NewJournalEntry) : Bool :=
  (entry.action = .created || entry.action = .modified) &&
  entry.mtime.any (0 ≤ ·) && entry.size.any (· ≤ maxSafeInteger) && entry.hash.all isRootHash

def validateJournalEntry (row : JournalEntry) : Except Failure JournalEntry :=
  if !isSafeVaultPath row.path || row.ts < 0 then invalid "invalid journal mutation fields"
  else if row.action = .renamed ∧ (!row.oldPath.any isSafeVaultPath || row.oldPath = some row.path) then
    invalid "invalid linked rename journal mutation"
  else if !row.oldPath.all isSafeVaultPath then invalid "invalid old journal path"
  else if hasSourceMetadata row.toNewJournalEntry && !validSourceMetadata row.toNewJournalEntry then
    invalid "invalid journal source metadata"
  else if row.id < 1 || maxSafeInteger ≤ row.id then invalid "invalid journal generation"
  else .ok row

inductive JournalRecord where
  | entry (entry : JournalEntry)
  | rename (entry : JournalEntry) (oldPending newPending : Bool)
  deriving DecidableEq

def JournalRecord.value : JournalRecord → JournalEntry
  | .entry row => row
  | .rename row _ _ => row

def JournalRecord.id (record : JournalRecord) : Nat := record.value.id

/-- `JSON.stringify` of a string without control characters. -/
def jsonString (s : String) : JsString :=
  [34] ++ (s.toList.flatMap fun c => if c = '"' ∨ c = '\\' then [92, c.toNat] else charUnits c) ++ [34]

/-- An absent element of an array is written as `null`. -/
def jsonElement : Option String → JsString
  | some s => jsonString s
  | none => utf16Units "null"

def journalRecordKey (record : JournalRecord) : JsString :=
  digits 16 record.id ++ utf16Units ":" ++
    match record with
    | .entry entry => utf16Units "e:" ++ jsonString entry.path
    | .rename entry _ _ => utf16Units "r:" ++
      (utf16Units "[" ++ jsonElement entry.oldPath ++ utf16Units "," ++ jsonString entry.path ++ utf16Units "]")

def snapshotRecord (row : JournalRecord) : Except Failure JournalRecord := do
  discard (validateJournalEntry row.value)
  match row with
  | .entry entry =>
    if entry.action = .renamed then invalid "invalid ordinary journal snapshot record" else .ok row
  | .rename entry oldPending newPending =>
    if entry.action ≠ .renamed ∨ (!oldPending && !newPending) then
      invalid "invalid linked journal snapshot record"
    else .ok row

/-- A record as the index holds it: a valid row, and a linked one with an endpoint to settle. -/
def JournalRecord.Valid (record : JournalRecord) : Prop := snapshotRecord record = .ok record

end Obsetync.Journal

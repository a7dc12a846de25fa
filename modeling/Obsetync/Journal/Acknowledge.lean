import Obsetync.Journal.Updates

namespace Obsetync.Journal

open JournalIndex

/-- One group loses its endpoint at the path. -/
structure Settles (index next : JournalIndex) (path : String) (key : JsString)
    (updated : JournalRecord) : Prop where
  linked : Linked next
  listed : ∀ p k, Listed next.groupsByEndpoint p k ↔
    Listed index.groupsByEndpoint p k ∧ (p = path → k ≠ key)
  holds : ∀ r, Holds next r ↔
    Holds index r ∧ journalRecordKey r ≠ key ∨ r = updated ∧ pending updated = true

def acknowledged (path : String) (throughId : Nat) (record : JournalRecord) : Option JournalRecord :=
  if throughId < record.id then some record
  else match record with
    | .entry entry => if entry.path = path then none else some record
    | .rename entry oldPending newPending =>
      let updated := settled path entry oldPending newPending
      if pending updated then some updated else none

def groupAcknowledged (path : String) (throughId : Nat) (record : JournalRecord) : Option JournalRecord :=
  match record with
  | .entry _ => some record
  | .rename .. => acknowledged path throughId record

end Obsetync.Journal

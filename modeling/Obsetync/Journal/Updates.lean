import Obsetync.Journal.Index

namespace Obsetync.Journal

open JournalIndex

def dropNormal (index : JournalIndex) (path : String) (key : JsString) : JournalIndex :=
  { index with
    ordered := index.ordered.remove key
    normalByPath := index.normalByPath.remove (utf16Units path) }

/-- What an appended row replaces: the ordinary row of its path, unless it is a rename. -/
def Replaces (entry : JournalEntry) : JournalRecord → Prop
  | .entry old => entry.action ≠ .renamed ∧ old.path = entry.path
  | .rename .. => False

def Unknown (index : JournalIndex) (row : JournalRecord) : Prop :=
  index.ordered.get (journalRecordKey row) = none ∧
    ∀ entry, row = .entry entry → index.normalByPath.get (utf16Units entry.path) = none

end Obsetync.Journal

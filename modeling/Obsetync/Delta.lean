import Obsetync.Entry

namespace Obsetync

/-- A change of one file between two roots. -/
inductive FileDelta
  | added (path : String) (hash : FileHash) (size mtimeMs : UInt64)
  | modified (path : String) (hash : FileHash) (size mtimeMs : UInt64)
  | deleted (path : String) (hash : FileHash)
  | renamed (path oldPath : String) (hash : FileHash) (size mtimeMs : UInt64)
  deriving DecidableEq

def FileDelta.path : FileDelta → String
  | .added path _ _ _ => path
  | .modified path _ _ _ => path
  | .deleted path _ => path
  | .renamed path _ _ _ _ => path

def FileDelta.oldPath : FileDelta → String
  | .renamed _ oldPath _ _ _ => oldPath
  | _ => ""

def FileDelta.action : FileDelta → UInt8
  | .added .. => 1
  | .modified .. => 2
  | .deleted .. => 3
  | .renamed .. => 4

end Obsetync

import Obsetync.Text

namespace Obsetync

/-- `similar::DiffOp`: one block of a line diff. -/
inductive DiffOp
  | equal (oldIndex newIndex len : Nat)
  | delete (oldIndex oldLen newIndex : Nat)
  | insert (oldIndex newIndex newLen : Nat)
  | replace (oldIndex oldLen newIndex newLen : Nat)
  deriving DecidableEq, Repr

/-- What the merge reads of a `similar::TextDiff`: the lines of both texts with their terminators,
and the blocks. -/
structure TextDiff where
  oldSlices : List String
  newSlices : List String
  ops : List DiffOp
  deriving DecidableEq, Repr

inductive TextMergeResult
  | merged (content : Bytes)
  | overlap
  deriving DecidableEq, Repr

/-- A range of changed lines in the base's line numbering. -/
structure ChangeRange where
  start : Nat
  stop : Nat
  deriving DecidableEq, Repr

def collectChangedRanges (diff : TextDiff) : List ChangeRange :=
  diff.ops.filterMap fun
    | .equal _ _ _ => none
    | .delete oldIndex oldLen _ => some ⟨oldIndex, oldIndex + oldLen⟩
    | .replace oldIndex oldLen _ _ => some ⟨oldIndex, oldIndex + oldLen⟩
    | .insert oldIndex _ _ => some ⟨oldIndex, oldIndex⟩

def ChangeRange.overlaps (ra rb : ChangeRange) : Bool :=
  let aEnd := if ra.start = ra.stop then ra.stop + 1 else ra.stop
  let bEnd := if rb.start = rb.stop then rb.stop + 1 else rb.stop
  ra.start < bEnd && rb.start < aEnd

def rangesOverlap (a b : List ChangeRange) : Bool := a.any fun ra => b.any fun rb => ra.overlaps rb

structure MergeOp where
  oldLen : Nat
  newLines : List String
  deriving DecidableEq, Repr

def newLinesOf (diff : TextDiff) (newIndex newLen : Nat) : List String :=
  ((diff.newSlices.drop newIndex).take newLen).map (trimEndMatches '\n')

/-- The entry an operation adds to the map of `collect_ops`. -/
def mergeOpOf (diff : TextDiff) : DiffOp → Option (Nat × MergeOp)
  | .equal _ _ _ => none
  | .delete oldIndex oldLen _ => some (oldIndex, ⟨oldLen, []⟩)
  | .replace oldIndex oldLen newIndex newLen =>
    some (oldIndex, ⟨oldLen, newLinesOf diff newIndex newLen⟩)
  | .insert oldIndex newIndex newLen => some (oldIndex, ⟨0, newLinesOf diff newIndex newLen⟩)

def insertOp (ops : Nat → Option MergeOp) (op : Nat × MergeOp) : Nat → Option MergeOp :=
  Function.update ops op.1 (some op.2)

/-- The operations by the base line they start at; a later one replaces an earlier one. -/
def collectOps (diff : TextDiff) : Nat → Option MergeOp :=
  (diff.ops.filterMap (mergeOpOf diff)).foldl insertOp fun _ => none

/-- The loop over the base lines of `apply_non_overlapping_changes`. Every turn moves `i`, so
`fuel` turns suffice from `i` when `baseLines.length ≤ i + fuel`. -/
def mergeLoop (baseLines : List String) (localOps remoteOps : Nat → Option MergeOp) :
    Nat → Nat → List String → Option (List String)
  | 0, _, result => some result
  | fuel + 1, i, result =>
    match baseLines[i]? with
    | none => some result
    | some line =>
      match localOps i, remoteOps i with
      | some op, none =>
        mergeLoop baseLines localOps remoteOps fuel (i + max op.oldLen 1) (result ++ op.newLines)
      | none, some op =>
        mergeLoop baseLines localOps remoteOps fuel (i + max op.oldLen 1) (result ++ op.newLines)
      | none, none => mergeLoop baseLines localOps remoteOps fuel (i + 1) (result ++ [line])
      | some _, some _ => none

def trailing (ops : Nat → Option MergeOp) (n : Nat) : List String :=
  (ops n).elim [] MergeOp.newLines

def mergedLines (baseLines : List String) (localOps remoteOps : Nat → Option MergeOp) :
    Option (List String) :=
  (mergeLoop baseLines localOps remoteOps baseLines.length 0 []).map fun result =>
    result ++ trailing localOps baseLines.length ++ trailing remoteOps baseLines.length

def renderLines (base : String) (result : List String) : String :=
  if endsWith base '\n' then joinLines result ++ "\n" else joinLines result

def applyNonOverlappingChanges (base : String) (diffLocal diffRemote : TextDiff) : Option String :=
  (mergedLines (lines base) (collectOps diffLocal) (collectOps diffRemote)).map (renderLines base)

/-- `fromLines` is `similar::TextDiff::from_lines`. -/
def threeWayTextMerge (fromLines : String → String → TextDiff) (base loc remote : Bytes) :
    TextMergeResult :=
  let baseStr := fromUtf8Lossy base
  let diffLocal := fromLines baseStr (fromUtf8Lossy loc)
  let diffRemote := fromLines baseStr (fromUtf8Lossy remote)
  if rangesOverlap (collectChangedRanges diffLocal) (collectChangedRanges diffRemote) then .overlap
  else
    match applyNonOverlappingChanges baseStr diffLocal diffRemote with
    | some content => .merged (asBytes content)
    | none => .overlap

end Obsetync

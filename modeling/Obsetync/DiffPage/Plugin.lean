import Obsetync.Pull.Diff
import Obsetync.Hex
import Obsetync.VaultPath

/-! The plugin's side of the paged diff. -/

namespace Obsetync.DiffPage.Plugin
open Wire Fallible Keyed
open Pull (rootFromHex)

def hardMinPageBytes : Nat := 64 * 1024
def hardMaxPageBytes : Nat := 2 * 1024 * 1024
def hardMaxPageRecords : Nat := 8192
def hardMaxPathBytes : Nat := 4096
def hardMaxCursorBytes : Nat := 4 + 1 + 32 + 32 + 1 + 2 + 2 + 2 * hardMaxPathBytes
def mobilePageBytes : Nat := 512 * 1024

structure DiffPageLimits where
  maxBytes : Nat
  maxRecords : Nat
  maxPathBytes : Nat
  deriving DecidableEq

inductive Runtime
  | desktop
  | mobile
  deriving DecidableEq

def boundedLimits (limits : DiffPageLimits) : Bool :=
  hardMinPageBytes ≤ limits.maxBytes && limits.maxBytes ≤ hardMaxPageBytes &&
    1 ≤ limits.maxRecords && limits.maxRecords ≤ hardMaxPageRecords &&
    1 ≤ limits.maxPathBytes && limits.maxPathBytes ≤ hardMaxPathBytes

/-- What is taken from the limits that the server advertises. -/
def negotiateDiffPageLimits (advertised : DiffPageLimits) (runtime : Runtime) : Option DiffPageLimits :=
  if boundedLimits advertised then
    some { advertised with
      maxBytes := min advertised.maxBytes (if runtime = .mobile then mobilePageBytes else hardMaxPageBytes) }
  else none

def validateLimits (limits : DiffPageLimits) : Except CodecError Unit :=
  reject (!boundedLimits limits) "invalid paged diff limits"

/-- A delta as the plugin holds it. -/
inductive Delta
  | added (path hash : String) (size mtimeMs : Nat)
  | modified (path hash : String) (size mtimeMs : Nat)
  | deleted (path : String)
  | renamed (path : String) (oldPath : Option String) (hash : String) (size mtimeMs : Nat)
  deriving DecidableEq

structure Page where
  fromRoot : String
  toRoot : String
  deltas : List Delta
  nextCursor : Option Bytes
  wireBytes : Nat
  deriving DecidableEq

structure CursorKey where
  fromRoot : Bytes
  toRoot : Bytes
  pathBytes : Bytes
  action : UInt8
  oldPathBytes : Bytes
  deriving DecidableEq

/-- `String.prototype.toLowerCase`, where it can make a hexadecimal digit. -/
def toLowerCase (s : String) : String := String.ofList (s.toList.map Char.toLower)

def decodeHash (value description : String) : Except CodecError FileHash :=
  orElse (rootFromHex value) s!"{description} is not a BLAKE3 hash"

def encodeDiffPageRequest (fromRootHex : String) (toRootHex : Option String) (cursor : Option Bytes)
    (limits : DiffPageLimits) : Except CodecError Bytes := do
  validateLimits limits
  let fromRoot ← decodeHash fromRootHex "source root"
  let toRoot ← toRootHex.elim (pure zeroRoot) (decodeHash · "target root")
  let cursorBytes := cursor.getD []
  reject (hardMaxCursorBytes < cursorBytes.length || 0xffff < cursorBytes.length)
    "diff cursor exceeds hard limit"
  reject (0 < cursorBytes.length && toRootHex.isNone) "diff continuation omitted target root"
  return requestMagic ++ (fromRoot.val ++ (toRoot.val ++ (leBytes 4 limits.maxRecords ++
    (leBytes 4 limits.maxBytes ++ (leBytes 2 cursorBytes.length ++ cursorBytes)))))

def byteOrderMark : Char := Char.ofNat 0xFEFF

/-- A text without the byte order mark in front of it. -/
def dropBom (s : String) : String :=
  match s.toList with
  | [] => s
  | c :: cs => if c = byteOrderMark then String.ofList cs else s

/-- `TextDecoder("utf-8", fatal)`: `ignoreBOM` is not set, so the mark is not part of the text. -/
def textDecode (bytes : Bytes) : Option String := (fromUtf8 bytes).map dropBom

def decodePath (bytes : Bytes) (description : String) : Except CodecError String := do
  let path ← orElse (textDecode bytes) s!"{description} is not UTF-8"
  reject (!isSafeVaultPath path) s!"{description} is unsafe"
  return path

/-- The rest of a varint after `count` bytes of it. -/
def varintLoop : Nat → Nat → Nat → Reader CodecError Nat
  | 0, _, _ => ask (.error ⟨"diff varint is too long"⟩)
  | fuel + 1, count, value => do
    let raw ← take ⟨"diff varint is truncated"⟩ 1
    let byte := raw.headD 0
    ask (reject (count = 4 && byte &&& 0xf0 ≠ 0) "diff varint overflows u32")
    let value := value + (byte &&& 0x7f).toNat * 2 ^ (7 * count)
    if byte &&& 0x80 = 0 then do
      ask (reject (0 < count && value < 2 ^ (count * 7)) "diff varint is not canonical")
      return value
    else varintLoop fuel (count + 1) value

def decodeVarint : Reader CodecError Nat := varintLoop 5 0 0

def readSafeU64 (bytes : Bytes) (offset : Nat) (description : String) : Except CodecError Nat := do
  let low := ofLe ((bytes.drop offset).take 4)
  let high := ofLe ((bytes.drop (offset + 4)).take 4)
  reject (0x1fffff < high) s!"{description} exceeds JavaScript safe integer range"
  let value := high * 0x100000000 + low
  reject (maxSafeInteger < value) s!"{description} is invalid"
  return value

def checkedAdd (offset length cap : Nat) (description : String) : Except CodecError Nat := do
  reject (maxSafeInteger < offset + length || cap < offset + length) s!"{description} exceeds page bounds"
  return offset + length

def compareBytes : Bytes → Bytes → Int
  | [], right => -right.length
  | left, [] => left.length
  | a :: left, b :: right => if a ≠ b then a.toNat - b.toNat else compareBytes left right

def compareKeys (left right : CursorKey) : Int :=
  let path := compareBytes left.pathBytes right.pathBytes
  if path ≠ 0 then path else
    let action : Int := left.action.toNat - right.action.toNat
    if action ≠ 0 then action else compareBytes left.oldPathBytes right.oldPathBytes

def requireEqualBytes (left right : Bytes) (description : String) : Except CodecError Unit :=
  reject (compareBytes left right ≠ 0) s!"{description} changed"

/-- The rename source of a cursor, if it has one. -/
def checkOldPath (path : String) (oldPathBytes : Bytes) : Except CodecError Unit :=
  if oldPathBytes = [] then .ok () else do
    let oldPath ← decodePath oldPathBytes "diff cursor old path"
    reject (oldPath = path) "diff cursor rename source equals target"

def decodeCursor (bytes : Bytes) (limits : DiffPageLimits) : Except CodecError CursorKey := do
  let fixed := 74
  reject (bytes.length < fixed || hardMaxCursorBytes < bytes.length) "diff cursor length is invalid"
  reject (bytes.take 4 ≠ cursorMagic) "diff cursor magic is invalid"
  reject (bytes.getD 4 0 ≠ cursorVersion) "unsupported diff cursor version"
  let fromRoot := (bytes.drop 5).take 32
  let toRoot := (bytes.drop 37).take 32
  let action := bytes.getD 69 0
  reject (action < 1 || 4 < action) "diff cursor action is invalid"
  let pathLength := ofLe ((bytes.drop 70).take 2)
  let oldPathLength := ofLe ((bytes.drop 72).take 2)
  reject (pathLength < 1 || limits.maxPathBytes < pathLength || limits.maxPathBytes < oldPathLength)
    "diff cursor path length is invalid"
  reject (decide (action = 4) ≠ decide (0 < oldPathLength)) "diff cursor fields do not match action"
  let pathEnd ← checkedAdd fixed pathLength bytes.length "diff cursor path"
  let expectedEnd ← checkedAdd pathEnd oldPathLength bytes.length "diff cursor old path"
  reject (expectedEnd ≠ bytes.length) "diff cursor has trailing bytes"
  let pathBytes := (bytes.drop fixed).take pathLength
  let oldPathBytes := (bytes.drop pathEnd).take oldPathLength
  let path ← decodePath pathBytes "diff cursor path"
  checkOldPath path oldPathBytes
  return ⟨fromRoot, toRoot, pathBytes, action, oldPathBytes⟩

def decodePathBytes (limits : DiffPageLimits) (description : String) : Reader CodecError Bytes := do
  let length ← decodeVarint
  ask (reject (length < 1 || limits.maxPathBytes < length) s!"{description} length is invalid")
  take ⟨s!"{description} exceeds page bounds"⟩ length

def decodeRename (limits : DiffPageLimits) (index : Nat) (action : UInt8) (path : String) :
    Reader CodecError (Bytes × Option String) :=
  if action = 4 then do
    let oldPathBytes ← decodePathBytes limits s!"diff record {index} rename source"
    let oldPath ← ask (decodePath oldPathBytes s!"diff record {index} rename source")
    ask (reject (oldPath = path) s!"diff record {index} renames a path onto itself")
    return (oldPathBytes, some oldPath)
  else pure ([], none)

def requireOrder (previous : Option CursorKey) (key : CursorKey) : Except CodecError Unit :=
  match previous with
  | none => .ok ()
  | some previous => do
    reject (compareBytes previous.pathBytes key.pathBytes = 0)
      "diff page touches one target path more than once"
    reject (0 ≤ compareKeys previous key) "diff records are not strictly ordered"

def decodePayload (index : Nat) (action : UInt8) (path : String) (oldPath : Option String) :
    Reader CodecError Delta :=
  if action = 3 then pure (.deleted path) else do
    let payload ← take ⟨s!"diff record {index} payload exceeds page bounds"⟩ 48
    let hash := hexEncode (payload.take 32)
    let size ← ask (readSafeU64 payload 32 s!"diff record {index} size")
    let mtimeMs ← ask (readSafeU64 payload 40 s!"diff record {index} mtime")
    return if action = 1 then .added path hash size mtimeMs
      else if action = 2 then .modified path hash size mtimeMs
      else .renamed path oldPath hash size mtimeMs

def decodeRecord (limits : DiffPageLimits) (fromRoot toRoot : Bytes) (index seen : Nat)
    (previous : Option CursorKey) : Reader CodecError (Delta × CursorKey × Nat) := do
  let raw ← take ⟨s!"diff record {index} is truncated"⟩ 1
  let action := raw.headD 0
  ask (reject (action < 1 || 4 < action) s!"diff record {index} has invalid action")
  let pathBytes ← decodePathBytes limits s!"diff record {index} path"
  let path ← ask (decodePath pathBytes s!"diff record {index} path")
  let (oldPathBytes, oldPath) ← decodeRename limits index action path
  let seen ← ask (checkedAdd seen (pathBytes.length + oldPathBytes.length) limits.maxBytes
    "diff path byte sum")
  let key : CursorKey := ⟨fromRoot, toRoot, pathBytes, action, oldPathBytes⟩
  ask (requireOrder previous key)
  let delta ← decodePayload index action path oldPath
  return (delta, key, seen)

/-- The records that are left, with the key of the last one. -/
def decodeRecords (limits : DiffPageLimits) (fromRoot toRoot : Bytes) :
    Nat → Nat → Nat → Option CursorKey → Reader CodecError (List Delta × Option CursorKey)
  | 0, _, _, previous => return ([], previous)
  | count + 1, index, seen, previous => do
    let (delta, key, seen) ← decodeRecord limits fromRoot toRoot index seen previous
    let (deltas, last) ← decodeRecords limits fromRoot toRoot count (index + 1) seen (some key)
    return (delta :: deltas, last)

/-- The cursor of the request, which the page has to belong to. -/
def decodePrevious (requestCursor : Option Bytes) (fromRoot toRoot : Bytes) (limits : DiffPageLimits) :
    Except CodecError (Option CursorKey) :=
  match requestCursor with
  | none => .ok none
  | some bytes => do
    let previous ← decodeCursor bytes limits
    requireEqualBytes previous.fromRoot fromRoot "request cursor source root"
    requireEqualBytes previous.toRoot toRoot "request cursor target root"
    return some previous

def checkNext (nextCursor : Option Bytes) (fromRoot toRoot : Bytes) (last : Option CursorKey)
    (limits : DiffPageLimits) : Except CodecError Unit :=
  match nextCursor with
  | none => .ok ()
  | some bytes => do
    let next ← decodeCursor bytes limits
    requireEqualBytes next.fromRoot fromRoot "next cursor source root"
    requireEqualBytes next.toRoot toRoot "next cursor target root"
    reject (!last.any fun last => compareKeys next last = 0) "next cursor does not name the final diff record"

def decodeDiffPage (body : Bytes) (expectedFromRoot : String) (expectedToRoot : Option String)
    (requestCursor : Option Bytes) (limits : DiffPageLimits) : Except CodecError Page := do
  validateLimits limits
  reject (limits.maxBytes < body.length) "diff page exceeds negotiated byte cap"
  reject (body.length < pageHeaderBytes) "diff page is truncated"
  reject (body.take 4 ≠ pageMagic) "diff page magic is invalid"
  let fromRootBytes := (body.drop 4).take 32
  let toRootBytes := (body.drop 36).take 32
  let fromRoot := hexEncode fromRootBytes
  let toRoot := hexEncode toRootBytes
  reject (fromRoot ≠ toLowerCase expectedFromRoot) "diff page source root changed"
  reject (expectedToRoot.any fun expected => toRoot ≠ toLowerCase expected) "diff page target root changed"
  reject (toRootBytes.all (· = 0)) "diff page target root is zero"
  let recordCount := ofLe ((body.drop 68).take 4)
  let nextLength := ofLe ((body.drop 72).take 2)
  reject (limits.maxRecords < recordCount) "diff page exceeds record cap"
  reject (hardMaxCursorBytes < nextLength) "diff page cursor exceeds hard limit"
  let offset ← checkedAdd pageHeaderBytes nextLength body.length "diff cursor"
  let nextCursor := if nextLength = 0 then none else some ((body.drop pageHeaderBytes).take nextLength)
  let previous ← decodePrevious requestCursor fromRootBytes toRootBytes limits
  let ((deltas, last), rest) ←
    decodeRecords limits fromRootBytes toRootBytes recordCount 0 0 previous (body.drop offset)
  reject (rest ≠ []) "diff page has trailing bytes"
  reject (nextCursor.isSome && recordCount = 0) "empty diff page carries a continuation"
  checkNext nextCursor fromRootBytes toRootBytes last limits
  return ⟨fromRoot, toRoot, deltas, nextCursor, body.length⟩

end Obsetync.DiffPage.Plugin

import Obsetync.Delta
import Obsetync.TreeV2.Codec

/-! Requests, cursors and records of the paged diff. -/

namespace Obsetync.DiffPage
open Wire Fallible Keyed List
open TreeV2 (isControl)

def requestMagic : Bytes := asBytes "OBQ1"
def pageMagic : Bytes := asBytes "OBD1"
def cursorMagic : Bytes := asBytes "OBC1"
def cursorVersion : UInt8 := 1
def requestHeaderBytes : Nat := 4 + 32 + 32 + 4 + 4 + 2
def pageHeaderBytes : Nat := 4 + 32 + 32 + 4 + 2
def minPageBytes : Nat := 64 * 1024
def maxPageBytes : Nat := 2 * 1024 * 1024
def maxPageRecords : Nat := 8192
def maxPathBytes : Nat := 4096
def cursorFixedBytes : Nat := 4 + 1 + 32 + 32 + 1 + 2 + 2
def maxCursorBytes : Nat := cursorFixedBytes + 2 * maxPathBytes

def zeroRoot : FileHash := ⟨List.replicate 32 0, length_zeros⟩

structure CodecError where
  message : String
  deriving DecidableEq

structure CursorKey where
  path : String
  action : UInt8
  oldPath : String
  deriving DecidableEq

structure DiffCursor where
  fromRoot : FileHash
  toRoot : FileHash
  key : CursorKey
  deriving DecidableEq

structure DiffPageRequest where
  fromRoot : FileHash
  toRoot : Option FileHash
  maxRecords : Nat
  maxPlainBytes : Nat
  cursor : Option DiffCursor
  deriving DecidableEq

structure EncodedPage where
  bytes : Bytes
  recordCount : Nat
  hasMore : Bool
  deriving DecidableEq

def reject (bad : Bool) (message : String) : Except CodecError Unit :=
  if bad then .error ⟨message⟩ else .ok ()

def validatePath (path : String) : Except CodecError Unit := do
  reject (path.isEmpty || maxPathBytes < path.utf8ByteSize || path.toList.head? = some '/')
    "invalid vault-relative path length"
  reject (path.toList.contains '\\' || path.toList.any isControl ||
      (path.toList.splitOn '/').any fun segment =>
        segment = [] || segment = ['.'] || segment = ['.', '.'])
    "unsafe vault-relative path"

def validateRename : FileDelta → Except CodecError Unit
  | .renamed path oldPath _ _ _ => do
    validatePath oldPath
    reject (path = oldPath) "rename source equals target"
  | _ => .ok ()

def validateDelta (delta : FileDelta) : Except CodecError Unit := do
  validatePath delta.path
  validateRename delta

def keyOf (delta : FileDelta) : CursorKey := ⟨delta.path, delta.action, delta.oldPath⟩

/-- Texts are compared by their bytes. -/
def byteOrder (s : String) : List Nat := (asBytes s).map UInt8.toNat

def CursorKey.order (key : CursorKey) : List Nat ×ₗ Nat ×ₗ List Nat :=
  toLex (byteOrder key.path, toLex (key.action.toNat, byteOrder key.oldPath))

def leftKey (delta : FileDelta) : List Nat ×ₗ Nat ×ₗ List Nat := (keyOf delta).order

def sortAndValidateDeltas (deltas : List FileDelta) : Except CodecError (List FileDelta) := do
  deltas.forM validateDelta
  let sorted := sortBy leftKey deltas
  reject (anyPair (fun a b => a.path = b.path) sorted) "diff touches one target path more than once"
  reject (anyPair (fun a b => leftKey b ≤ leftKey a) sorted) "diff records are not strictly ordered"
  return sorted

def cursorBytes (fromRoot toRoot : FileHash) (key : CursorKey) : Bytes :=
  cursorMagic ++ ([cursorVersion] ++ (fromRoot.val ++ (toRoot.val ++ ([key.action] ++
    (leBytes 2 key.path.utf8ByteSize ++ (leBytes 2 key.oldPath.utf8ByteSize ++
      (asBytes key.path ++ asBytes key.oldPath)))))))

def encodeCursor (fromRoot toRoot : FileHash) (delta : FileDelta) : Except CodecError Bytes := do
  reject (2 ^ 16 ≤ delta.path.utf8ByteSize) "cursor path length overflow"
  reject (2 ^ 16 ≤ delta.oldPath.utf8ByteSize) "cursor old path length overflow"
  return cursorBytes fromRoot toRoot (keyOf delta)

def orElse (value : Option α) (message : String) : Except CodecError α :=
  match value with
  | some a => .ok a
  | none => .error ⟨message⟩

def readHash (bytes : Bytes) (offset : Nat) : Except CodecError FileHash := do
  let raw ← orElse (slice bytes offset 32) "diff hash is truncated"
  if h : raw.length = 32 then return ⟨raw, h⟩ else throw ⟨"diff hash is truncated"⟩

def readLe (width : Nat) (message : String) (bytes : Bytes) (offset : Nat) :
    Except CodecError Nat := do
  return ofLe (← orElse (slice bytes offset width) message)

def readU16 : Bytes → Nat → Except CodecError Nat := readLe 2 "diff u16 is truncated"

def readU32 : Bytes → Nat → Except CodecError Nat := readLe 4 "diff u32 is truncated"

def validateOldPath (path oldPath : String) : Except CodecError Unit := do
  if oldPath.isEmpty then return
  validatePath oldPath
  reject (oldPath = path) "diff cursor rename source equals target"

def decodeCursor (bytes : Bytes) : Except CodecError DiffCursor := do
  reject (bytes.length < cursorFixedBytes || maxCursorBytes < bytes.length)
    "diff cursor length is invalid"
  reject (bytes.take 4 ≠ cursorMagic || bytes[4]? ≠ some cursorVersion) "unsupported diff cursor"
  let fromRoot ← readHash bytes 5
  let toRoot ← readHash bytes 37
  let action ← orElse bytes[69]? "index out of bounds"
  reject (!(1 ≤ action && action ≤ 4)) "diff cursor action is invalid"
  let pathLen ← readU16 bytes 70
  let oldPathLen ← readU16 bytes 72
  reject (pathLen = 0 || maxPathBytes < pathLen || maxPathBytes < oldPathLen)
    "diff cursor path length is invalid"
  reject (action = 4 && oldPathLen = 0 || action ≠ 4 && oldPathLen ≠ 0)
    "diff cursor fields do not match action"
  reject (bytes.length ≠ cursorFixedBytes + pathLen + oldPathLen)
    "diff cursor has trailing or missing bytes"
  let path ← orElse (fromUtf8 ((bytes.drop cursorFixedBytes).take pathLen))
    "diff cursor path is not UTF-8"
  let oldPath ← orElse (fromUtf8 (bytes.drop (cursorFixedBytes + pathLen)))
    "diff cursor old path is not UTF-8"
  validatePath path
  validateOldPath path oldPath
  return ⟨fromRoot, toRoot, ⟨path, action, oldPath⟩⟩

def requestCursor (fromRoot : FileHash) (toRoot : Option FileHash) (cursorLen : Nat)
    (bytes : Bytes) : Except CodecError (Option DiffCursor) :=
  if cursorLen = 0 then .ok none else do
    let cursor ← decodeCursor bytes
    let requestedTo ← orElse toRoot "continuation request omitted target root"
    reject (cursor.fromRoot ≠ fromRoot || cursor.toRoot ≠ requestedTo)
      "diff cursor roots do not match request"
    return some cursor

def decodeRequest (bytes : Bytes) : Except CodecError DiffPageRequest := do
  reject (bytes.length < requestHeaderBytes) "diff request is truncated"
  reject (bytes.take 4 ≠ requestMagic) "invalid diff request magic"
  let fromRoot ← readHash bytes 4
  let rawToRoot ← readHash bytes 36
  let maxRecords ← readU32 bytes 68
  let maxPlainBytes ← readU32 bytes 72
  let cursorLen ← readU16 bytes 76
  reject (maxRecords = 0 || maxPageRecords < maxRecords) "diff request record cap is invalid"
  reject (!(minPageBytes ≤ maxPlainBytes && maxPlainBytes ≤ maxPageBytes))
    "diff request byte cap is invalid"
  reject (maxCursorBytes < cursorLen) "diff cursor exceeds hard limit"
  reject (bytes.length ≠ requestHeaderBytes + cursorLen) "diff request has trailing or missing bytes"
  let toRoot := if rawToRoot ≠ zeroRoot then some rawToRoot else none
  let cursor ← requestCursor fromRoot toRoot cursorLen (bytes.drop requestHeaderBytes)
  return ⟨fromRoot, toRoot, maxRecords, maxPlainBytes, cursor⟩

def varintLen (value : Nat) : Nat :=
  if value < 0x80 then 1 else varintLen (value / 128) + 1

def varint (value : Nat) : Bytes :=
  let low := UInt8.ofNat (value % 128)
  if value / 128 = 0 then [low] else (low ||| 0x80) :: varint (value / 128)

def encodeVarint (value : Nat) : Except CodecError Bytes := do
  reject (2 ^ 32 ≤ value) "diff varint overflow"
  return varint value

/-- The length of the path a rename comes from, with its prefix. -/
def renameLen : FileDelta → Nat
  | .renamed _ oldPath _ _ _ => varintLen oldPath.utf8ByteSize + oldPath.utf8ByteSize
  | _ => 0

def contentLen : FileDelta → Nat
  | .deleted .. => 0
  | _ => 32 + 8 + 8

def encodedRecordLen (delta : FileDelta) : Except CodecError Nat := do
  validateDelta delta
  return 1 + varintLen delta.path.utf8ByteSize + delta.path.utf8ByteSize + renameLen delta +
    contentLen delta

def encodeRename : FileDelta → Except CodecError Bytes
  | .renamed _ oldPath _ _ _ => do
    return (← encodeVarint oldPath.utf8ByteSize) ++ asBytes oldPath
  | _ => .ok []

def contentBytes (hash : FileHash) (size mtimeMs : UInt64) : Bytes :=
  hash.val ++ (leBytes 8 size.toNat ++ leBytes 8 mtimeMs.toNat)

def encodeContent : FileDelta → Bytes
  | .added _ hash size mtimeMs => contentBytes hash size mtimeMs
  | .modified _ hash size mtimeMs => contentBytes hash size mtimeMs
  | .renamed _ _ hash size mtimeMs => contentBytes hash size mtimeMs
  | .deleted .. => []

def encodeRecord (delta : FileDelta) : Except CodecError Bytes := do
  let pathLen ← encodeVarint delta.path.utf8ByteSize
  let rename ← encodeRename delta
  return delta.action :: (pathLen ++ (asBytes delta.path ++ (rename ++ encodeContent delta)))

@[simp] theorem reject_eq_ok : reject bad message = .ok () ↔ bad = false := by
  cases bad <;> simp [reject]

@[simp] theorem orElse_eq_ok : orElse value message = .ok a ↔ value = some a := by
  cases value <;> simp [orElse]

section Reading

variable {bytes rest : Bytes} {offset width n : Nat} {message : String} {hash : FileHash}

theorem readHash_of_drop (h : bytes.drop offset = hash.val ++ rest) :
    readHash bytes offset = .ok hash := by
  rw [readHash, slice_of_drop h hash.property (by decide)]
  exact dif_pos hash.property

theorem drop_of_readHash (h : readHash bytes offset = .ok hash) :
    bytes.drop offset = hash.val ++ bytes.drop (offset + 32) := by
  simp only [readHash, bind_eq_ok, orElse_eq_ok] at h
  obtain ⟨raw, hraw, h⟩ := h
  obtain ⟨hdrop, hlen⟩ := drop_of_slice hraw
  rw [dif_pos hlen] at h
  cases h
  exact hdrop

theorem readLe_of_drop (h : bytes.drop offset = leBytes width n ++ rest) (hn : n < 256 ^ width)
    (hpos : 0 < width) : readLe width message bytes offset = .ok n := by
  rw [readLe, slice_of_drop h leBytes_length hpos]
  exact congrArg Except.ok (ofLe_leBytes hn)

theorem drop_of_readLe (h : readLe width message bytes offset = .ok n) :
    bytes.drop offset = leBytes width n ++ bytes.drop (offset + width) ∧ n < 256 ^ width := by
  simp only [readLe, bind_eq_ok, orElse_eq_ok, pure_eq_ok] at h
  obtain ⟨raw, hraw, rfl⟩ := h
  obtain ⟨hdrop, rfl⟩ := drop_of_slice hraw
  rw [leBytes_ofLe]
  exact ⟨hdrop, ofLe_lt raw⟩

theorem drop_of_getElem? (h : bytes[offset]? = some b) :
    bytes.drop offset = b :: bytes.drop (offset + 1) := by
  obtain ⟨hlt, rfl⟩ := List.getElem?_eq_some_iff.1 h
  exact drop_eq_getElem_cons hlt

theorem getElem?_of_drop (h : bytes.drop offset = b :: rest) : bytes[offset]? = some b := by
  have := congrArg List.head? h
  rwa [head?_drop] at this

end Reading

section Paths

variable {path : String} {delta : FileDelta}

theorem validatePath_size (h : validatePath path = .ok ()) :
    0 < path.utf8ByteSize ∧ path.utf8ByteSize ≤ maxPathBytes := by
  simp only [validatePath, bind_eq_ok, exists_unit, reject_eq_ok, Bool.or_eq_false_iff,
    decide_eq_false_iff_not, not_lt] at h
  obtain ⟨⟨⟨hne, hle⟩, -⟩, -⟩ := h
  refine ⟨?_, hle⟩
  apply Nat.pos_of_ne_zero
  intro hz
  rw [String.utf8ByteSize_eq_zero_iff.1 hz] at hne
  cases hne

theorem validateDelta_path (h : validateDelta delta = .ok ()) : validatePath delta.path = .ok () := by
  rw [validateDelta, bind_eq_ok] at h
  exact h.choose_spec.1

theorem validateDelta_renamed {hash : FileHash}
    (h : validateDelta (.renamed path oldPath hash size mtimeMs) = .ok ()) :
    validatePath oldPath = .ok () ∧ path ≠ oldPath := by
  simp only [validateDelta, validateRename, bind_eq_ok, exists_unit, reject_eq_ok,
    decide_eq_false_iff_not] at h
  exact h.2

theorem oldPath_size_le (h : validateDelta delta = .ok ()) :
    delta.oldPath.utf8ByteSize ≤ maxPathBytes := by
  cases delta with
  | renamed => exact (validatePath_size (validateDelta_renamed h).1).2
  | added => exact Nat.zero_le _
  | modified => exact Nat.zero_le _
  | deleted => exact Nat.zero_le _

theorem action_eq_four (h : validateDelta delta = .ok ()) :
    delta.action = 4 ↔ delta.oldPath.utf8ByteSize ≠ 0 := by
  cases delta with
  | renamed =>
    have hpos := (validatePath_size (validateDelta_renamed h).1).1
    exact ⟨fun _ => hpos.ne', fun _ => rfl⟩
  | added => exact ⟨nofun, fun hne => (hne rfl).elim⟩
  | modified => exact ⟨nofun, fun hne => (hne rfl).elim⟩
  | deleted => exact ⟨nofun, fun hne => (hne rfl).elim⟩

theorem action_bounds (delta : FileDelta) : 1 ≤ delta.action ∧ delta.action ≤ 4 := by
  cases delta <;> simp [FileDelta.action]

theorem validateOldPath_of_valid (h : validateDelta delta = .ok ()) :
    validateOldPath delta.path delta.oldPath = .ok () := by
  cases delta with
  | renamed path oldPath =>
    obtain ⟨hold, hne⟩ := validateDelta_renamed h
    rw [validateOldPath]
    split_ifs
    · rfl
    · simp only [bind_eq_ok, exists_unit, reject_eq_ok, decide_eq_false_iff_not]
      exact ⟨hold, Ne.symm hne⟩
  | added => rfl
  | modified => rfl
  | deleted => rfl

end Paths

section Cursors

variable {fromRoot toRoot : FileHash} {delta : FileDelta} {bytes : Bytes} {cursor : DiffCursor}
  {key : CursorKey}

theorem cursorBytes_length : (cursorBytes fromRoot toRoot key).length =
    cursorFixedBytes + key.path.utf8ByteSize + key.oldPath.utf8ByteSize := by
  have hmagic : cursorMagic.length = 4 := by decide
  simp only [cursorBytes, length_append, length_cons, length_nil, hmagic, fromRoot.property,
    toRoot.property, leBytes_length, asBytes_length, cursorFixedBytes]
  omega

theorem encodeCursor_of_valid (h : validateDelta delta = .ok ()) :
    encodeCursor fromRoot toRoot delta = .ok (cursorBytes fromRoot toRoot (keyOf delta)) := by
  have hpath := (validatePath_size (validateDelta_path h)).2
  have hold := oldPath_size_le h
  have hsmall : maxPathBytes < 2 ^ 16 := by decide
  simp only [encodeCursor, bind_eq_ok, exists_unit, reject_eq_ok, decide_eq_false_iff_not, not_le]
  exact ⟨hpath.trans_lt hsmall, hold.trans_lt hsmall, rfl⟩

theorem cursorBytes_length_le (h : validateDelta delta = .ok ()) :
    (cursorBytes fromRoot toRoot (keyOf delta)).length ≤ maxCursorBytes := by
  have hpath := (validatePath_size (validateDelta_path h)).2
  have hold := oldPath_size_le h
  rw [cursorBytes_length, maxCursorBytes]
  change _ + delta.path.utf8ByteSize + delta.oldPath.utf8ByteSize ≤ _
  omega

theorem decodeCursor_cursorBytes (h : validateDelta delta = .ok ()) :
    decodeCursor (cursorBytes fromRoot toRoot (keyOf delta)) = .ok ⟨fromRoot, toRoot, keyOf delta⟩ := by
  obtain ⟨hpos, hle⟩ := validatePath_size (validateDelta_path h)
  have hold := oldPath_size_le h
  have hmax := (@cursorBytes_length_le fromRoot toRoot) h
  have hlen : (cursorBytes fromRoot toRoot (keyOf delta)).length =
      cursorFixedBytes + delta.path.utf8ByteSize + delta.oldPath.utf8ByteSize := cursorBytes_length
  have hsmall : maxPathBytes < 256 ^ 2 := by decide
  have h0 : (cursorBytes fromRoot toRoot (keyOf delta)).drop 0 = cursorMagic ++ _ := rfl
  have h4 := drop_add_of_drop (n := 4) h0 (by decide)
  have h5 := drop_add_of_drop (n := 1) h4 rfl
  have h37 := drop_add_of_drop h5 fromRoot.property
  have h69 := drop_add_of_drop h37 toRoot.property
  have h70 := drop_add_of_drop (n := 1) h69 rfl
  have h72 := drop_add_of_drop h70 leBytes_length
  have h74 := drop_add_of_drop h72 leBytes_length
  have hrest := drop_add_of_drop h74 (asBytes_length delta.path)
  have hmagic : (cursorBytes fromRoot toRoot (keyOf delta)).take 4 = cursorMagic :=
    take_left' (by decide)
  have haction := action_eq_four h
  have hbounds := action_bounds delta
  have hpathBytes : ((cursorBytes fromRoot toRoot (keyOf delta)).drop cursorFixedBytes).take
      delta.path.utf8ByteSize = asBytes delta.path := by
    rw [cursorFixedBytes, h74]
    exact take_left' (asBytes_length delta.path)
  simp only [decodeCursor, bind_eq_ok, exists_unit, reject_eq_ok, orElse_eq_ok, pure_eq_ok]
  refine ⟨?_, ?_, fromRoot, readHash_of_drop h5, toRoot, readHash_of_drop h37, delta.action,
    getElem?_of_drop h69, ?_, delta.path.utf8ByteSize,
    readLe_of_drop h70 (hle.trans_lt hsmall) (by decide), delta.oldPath.utf8ByteSize,
    readLe_of_drop h72 (hold.trans_lt hsmall) (by decide), ?_, ?_, ?_, delta.path, ?_,
    delta.oldPath, ?_, validateDelta_path h, validateOldPath_of_valid h, rfl⟩
  · simp only [Bool.or_eq_false_iff, decide_eq_false_iff_not, not_lt]
    exact ⟨by omega, hmax⟩
  · simp [hmagic, getElem?_of_drop h4]
  · simp [hbounds]
  · simp [hpos.ne', hle, hold]
  · by_cases hfour : delta.action = 4
    · simp [hfour, haction.1 hfour]
    · simp [hfour, not_not.1 (mt haction.2 hfour)]
  · simp [hlen]
  · rw [hpathBytes, fromUtf8_asBytes]
  · rw [cursorFixedBytes, hrest]
    exact fromUtf8_asBytes delta.oldPath

theorem eq_cursorBytes (h : decodeCursor bytes = .ok cursor) :
    bytes = cursorBytes cursor.fromRoot cursor.toRoot cursor.key := by
  simp only [decodeCursor, bind_eq_ok, exists_unit, reject_eq_ok, orElse_eq_ok, pure_eq_ok] at h
  obtain ⟨-, hmagic, fromRoot, hfrom, toRoot, hto, action, haction, -, pathLen, hpathLen, oldPathLen,
    hold, -, -, hlen, path, hpath, oldPath, holdPath, -, -, rfl⟩ := h
  simp only [Bool.or_eq_false_iff, decide_eq_false_iff_not, not_not] at hmagic hlen
  have hpathBytes := asBytes_fromUtf8 hpath
  have holdBytes := asBytes_fromUtf8 holdPath
  have hsize : path.utf8ByteSize = pathLen := by
    rw [← asBytes_length, hpathBytes, length_take, length_drop]
    omega
  have holdSize : oldPath.utf8ByteSize = oldPathLen := by
    rw [← asBytes_length, holdBytes, length_drop]
    omega
  rw [cursorBytes]
  dsimp only
  rw [hsize, holdSize, hpathBytes, holdBytes, ← drop_drop, take_append_drop]
  calc bytes = bytes.take 4 ++ bytes.drop 4 := (take_append_drop 4 bytes).symm
    _ = _ := by
      rw [hmagic.1, drop_of_getElem? hmagic.2, drop_of_readHash hfrom, drop_of_readHash hto,
        drop_of_getElem? haction, (drop_of_readLe hpathLen).1, (drop_of_readLe hold).1]
      rfl

theorem order_inj (h : key.order = key'.order) : key = key' := by
  have hbytes {s t : String} (h : byteOrder s = byteOrder t) : s = t :=
    asBytes_inj.1 (map_injective_iff.2 (fun _ _ h => UInt8.toNat_inj.1 h) h)
  obtain ⟨path, action, oldPath⟩ := key
  obtain ⟨path', action', oldPath'⟩ := key'
  have hpair := toLex_inj.1 h
  obtain ⟨hpath, hrest⟩ := Prod.mk.inj hpair
  obtain ⟨haction, hold⟩ := Prod.mk.inj (toLex_inj.1 hrest)
  cases hbytes hpath
  cases UInt8.toNat_inj.1 haction
  cases hbytes hold
  rfl

end Cursors

section Requests

variable {bytes : Bytes} {request : DiffPageRequest}

structure Decoded (bytes : Bytes) (request : DiffPageRequest) : Prop where
  records_pos : 0 < request.maxRecords
  bytes_ge : minPageBytes ≤ request.maxPlainBytes
  bytes_le : request.maxPlainBytes ≤ maxPageBytes
  first : request.cursor = none → bytes.drop requestHeaderBytes = []
  next : ∀ cursor ∈ request.cursor,
    bytes.drop requestHeaderBytes = cursorBytes cursor.fromRoot cursor.toRoot cursor.key

theorem decodeRequest_decoded (h : decodeRequest bytes = .ok request) : Decoded bytes request := by
  simp only [decodeRequest, bind_eq_ok, exists_unit, reject_eq_ok, pure_eq_ok] at h
  obtain ⟨-, -, fromRoot, -, rawToRoot, -, maxRecords, -, maxPlainBytes, -, cursorLen, -, hrecords,
    hbytes, -, hlen, cursor, hcursor, rfl⟩ := h
  simp only [Bool.or_eq_false_iff, decide_eq_false_iff_not, not_not, Bool.not_eq_false',
    Bool.and_eq_true, decide_eq_true_eq] at hrecords hbytes hlen
  rw [requestCursor] at hcursor
  by_cases hzero : cursorLen = 0
  · rw [if_pos hzero] at hcursor
    cases hcursor
    refine ⟨Nat.pos_of_ne_zero hrecords.1, hbytes.1, hbytes.2, fun _ => ?_, by rintro _ ⟨⟩⟩
    apply drop_eq_nil_of_le
    omega
  · simp only [if_neg hzero, bind_eq_ok, exists_unit, pure_eq_ok] at hcursor
    obtain ⟨c, hdecode, -, -, -, rfl⟩ := hcursor
    refine ⟨Nat.pos_of_ne_zero hrecords.1, hbytes.1, hbytes.2, by rintro ⟨⟩, ?_⟩
    rintro _ ⟨⟩
    exact eq_cursorBytes hdecode

end Requests

end Obsetync.DiffPage

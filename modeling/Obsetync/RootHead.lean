import Obsetync.Fallible
import Obsetync.Hex
import Obsetync.Json

namespace Obsetync
open Fallible Keyed Json List

def maxRootHeadBytes : Nat := 2 * 1024 * 1024
def maxRootReceiptBytes : Nat := 64 * 1024
def maxRootReceiptDevices : Nat := 128
def maxRootSequence : UInt64 := 9007199254740991
def headMagic : Bytes := asBytes "OBSETYNC_ROOT_HEAD_V1\n"
def headDomain : Bytes := asBytes "obsetync:root-head:v1\x00"
def headPrefixBytes : Nat := headMagic.length + 64 + 1

structure RootReceipt where
  sequence : UInt64
  mutationId : String
  requestHash : String
  result : JsonValue

abbrev Receipts := {receipts : List (String × RootReceipt) // Sorted Prod.fst receipts}

structure RootHead where
  rootHash : Option FileHash
  receipts : Receipts

/-- What a framed head holds. -/
structure HeadPayload where
  schema : UInt32
  vaultId : String
  rootHash : Option String
  receipts : Receipts

/-- `serde_json` at the two types: what it prints, and what it reads from a whole buffer. -/
structure SerdeJson where
  printReceipt : RootReceipt → Bytes
  printPayload : HeadPayload → Bytes
  fromSlice : Bytes → Option HeadPayload

/-- What is printed is read back. -/
def SerdeJson.Canonical (json : SerdeJson) (payload : HeadPayload) : Prop :=
  json.fromSlice (json.printPayload payload) = some payload

/-- An `io::Error` of the kind `InvalidData`. -/
structure InvalidData where
  message : String
  deriving DecidableEq

namespace RootHead

def invalid (message : String) : InvalidData := ⟨message⟩

def reject (bad : Bool) (message : String) : Except InvalidData Unit :=
  if bad then .error (invalid message) else .ok ()

/-- `ok_or_else`, and `map_err` of a result whose error is dropped. -/
def require {α : Type} (value : Option α) (message : String) : Except InvalidData α :=
  match value with
  | some a => .ok a
  | none => .error (invalid message)

/-- The writer refuses what goes over the limit, and the refusal gets this message. -/
def boundedJson (bytes : Bytes) (limit : Nat) : Except InvalidData Bytes := do
  reject (limit < bytes.length) "root metadata encoding or capacity failure"
  return bytes

def isHash (value : Value) : Bool := value.asStr.any (lowerHex · 64)

def isCount (value : Value) : Bool := value.asU64.any (· ≤ maxRootSequence)

def isCancellation (object : List (String × Value)) : Bool :=
  object.length = 1 && field object "cancelled" Value.isTrue

def validateConflict (conflict : Value) : Except InvalidData Unit := do
  let row ← require conflict.asObject "invalid root conflict row"
  reject (row.length ≠ 4 || !field row "path" fun v => v.asStr.any fun p => !p.isEmpty)
    "invalid root conflict fields"
  ["base_hash", "side_a_hash", "side_b_hash"].forM fun name =>
    reject (!field row name isHash) "invalid root conflict hash"

def validateMerged (object : List (String × Value)) : Except InvalidData Unit := do
  reject (!field object "merged" Value.isTrue || object.length ≠ 5)
    "invalid root outcome discriminator or fields"
  ["auto_resolved", "text_merged"].forM fun name =>
    reject (!field object name isCount) "invalid root merge count"
  let conflicts ← require ((Assoc.find object "conflicts").bind Value.asArray)
    "invalid root merge conflicts"
  conflicts.forM validateConflict

def validateResult (value : Value) : Except InvalidData Unit := do
  let object ← require value.asObject "root outcome must be an object"
  if isCancellation object then return ()
  else
    reject (!field object "root_hash" isHash) "invalid root outcome hash"
    if field object "accepted" Value.isTrue && object.length = 2 then return ()
    else validateMerged object

end RootHead

section Receipt
open RootHead

def RootReceipt.isCancelled (receipt : RootReceipt) : Bool :=
  receipt.result.val.asObject.any isCancellation

def RootReceipt.validate (json : SerdeJson) (receipt : RootReceipt) : Except InvalidData Unit := do
  reject (receipt.sequence = 0 || maxRootSequence < receipt.sequence)
    "root receipt sequence is not a positive safe integer"
  reject (!lowerHex receipt.mutationId 32 || !lowerHex receipt.requestHash 64)
    "invalid root receipt identity"
  validateResult receipt.result.val
  let _ ← boundedJson (json.printReceipt receipt) maxRootReceiptBytes

end Receipt

namespace RootHead

def validateDeviceId (device : String) : Except InvalidData Unit :=
  reject (!isSafeComponent device) "invalid root receipt device identity"

section Codec

variable (json : SerdeJson)

def validateHead (head : RootHead) : Except InvalidData Unit := do
  reject (maxRootReceiptDevices < head.receipts.val.length) "root receipt device capacity exceeded"
  head.receipts.val.forM fun (device, receipt) => do
    validateDeviceId device
    receipt.validate json
  reject (head.rootHash.isNone &&
      (head.receipts.val.isEmpty || head.receipts.val.any fun entry => !entry.2.isCancelled))
    "null root requires retained cancellation-only history"

def payloadOf (vaultId : String) (head : RootHead) : HeadPayload :=
  ⟨1, vaultId, head.rootHash.map hashToHex, head.receipts⟩

def payloadBytes (vaultId : String) (head : RootHead) : Except InvalidData Bytes :=
  boundedJson (json.printPayload (payloadOf vaultId head)) (maxRootHeadBytes - headPrefixBytes)

variable (hashBytes : Bytes → FileHash)

def checksumHex (payload : Bytes) : String := hashToHex (hashBytes (headDomain ++ payload))

def framePayload (payload : Bytes) : Bytes :=
  headMagic ++ asBytes (checksumHex hashBytes payload) ++ [10] ++ payload

def encode (vaultId : String) (head : RootHead) : Except InvalidData Bytes := do
  validateHead json head
  if head.receipts.val.isEmpty then
    let hash ← require head.rootHash "missing legacy root"
    return asBytes (hashToHex hash)
  else
    let payload ← payloadBytes json vaultId head
    return framePayload hashBytes payload

/-- `char::is_whitespace`. -/
def isWhitespace (c : Char) : Bool :=
  let n := c.toNat
  9 ≤ n && n ≤ 13 || n = 0x20 || n = 0x85 || n = 0xa0 || n = 0x1680 || 0x2000 ≤ n && n ≤ 0x200a ||
    n = 0x2028 || n = 0x2029 || n = 0x202f || n = 0x205f || n = 0x3000

/-- `str::trim`. -/
def trim (s : String) : String :=
  String.ofList ((s.toList.dropWhile isWhitespace).rdropWhile isWhitespace)

def legacyText (bytes : Bytes) : Option String := do
  let text ← fromUtf8 bytes
  let trimmed := trim text
  if trimmed.utf8ByteSize = 64 && (asBytes trimmed).all fun b => (hexValue b).isSome then some trimmed
  else none

def decodeFramed (vaultId : String) (bytes : Bytes) : Except InvalidData RootHead := do
  reject (bytes.length < headPrefixBytes || !headMagic.isPrefixOf bytes)
    "unknown or truncated root head format"
  let checksum := (bytes.drop headMagic.length).take 64
  reject (bytes[headMagic.length + 64]? ≠ some 10 || !checksum.all isLowerHexByte)
    "invalid root head checksum encoding"
  let payload := bytes.drop headPrefixBytes
  reject (checksum ≠ asBytes (checksumHex hashBytes payload)) "root head checksum mismatch"
  let parsed ← require (json.fromSlice payload) "invalid root head payload"
  reject (parsed.schema ≠ 1 || parsed.vaultId ≠ vaultId || parsed.rootHash.any fun h => !lowerHex h 64)
    "unsupported root head schema or scope"
  let rootHash ← parsed.rootHash.mapM fun h => require (hexToHash h) "invalid root hash"
  let head : RootHead := ⟨rootHash, parsed.receipts⟩
  validateHead json head
  let canonical ← payloadBytes json vaultId head
  reject (canonical ≠ payload) "noncanonical or ambiguous root head payload"
  return head

def decode (vaultId : String) (bytes : Bytes) : Except InvalidData RootHead := do
  reject (maxRootHeadBytes < bytes.length) "root head byte capacity exceeded"
  match legacyText bytes with
  | some trimmed =>
    let hash ← require (hexToHash trimmed) "invalid legacy root hash"
    return ⟨some hash, ⟨[], .nil⟩⟩
  | none => decodeFramed json hashBytes vaultId bytes

end Codec

variable {json : SerdeJson} {hashBytes : Bytes → FileHash} {vaultId : String} {head : RootHead}
  {bytes payload : Bytes}

@[simp] theorem reject_eq_ok : reject bad message = .ok () ↔ bad = false := by
  cases bad <;> simp [reject]

@[simp] theorem require_eq_ok : require value message = .ok a ↔ value = some a := by
  cases value <;> simp [require]

theorem boundedJson_eq_ok :
    boundedJson bytes limit = .ok out ↔ bytes.length ≤ limit ∧ bytes = out := by
  simp only [boundedJson, bind_eq_ok, exists_unit, reject_eq_ok, decide_eq_false_iff_not, not_lt,
    pure_eq_ok]

theorem validateHead_cancelled (h : validateHead json head = .ok ()) (hnone : head.rootHash = none) :
    head.receipts.val ≠ [] ∧ ∀ entry ∈ head.receipts.val, entry.2.isCancelled = true := by
  simp only [validateHead, bind_eq_ok, exists_unit, reject_eq_ok, hnone, Option.isNone_none,
    Bool.true_and, Bool.or_eq_false_iff, isEmpty_eq_false_iff, any_eq_false] at h
  obtain ⟨-, -, hne, hall⟩ := h
  refine ⟨hne, fun entry hentry => ?_⟩
  have hcancelled := hall entry hentry
  rwa [Bool.not_eq_true, Bool.not_eq_false'] at hcancelled

theorem encode_bare (h : validateHead json head = .ok ()) (hempty : head.receipts.val = []) :
    ∃ hash, head.rootHash = some hash ∧
      encode json hashBytes vaultId head = .ok (asBytes (hashToHex hash)) := by
  cases hroot : head.rootHash with
  | none => exact absurd hempty (validateHead_cancelled h hroot).1
  | some hash =>
    refine ⟨hash, rfl, ?_⟩
    rw [encode, h, hempty, hroot]
    rfl

theorem encode_framed (hne : head.receipts.val ≠ []) :
    encode json hashBytes vaultId head = .ok bytes ↔ validateHead json head = .ok () ∧
      (json.printPayload (payloadOf vaultId head)).length ≤ maxRootHeadBytes - headPrefixBytes ∧
      framePayload hashBytes (json.printPayload (payloadOf vaultId head)) = bytes := by
  simp only [encode, bind_eq_ok, exists_unit, isEmpty_eq_false_iff.2 hne, Bool.false_eq_true,
    if_false, payloadBytes, boundedJson_eq_ok, pure_eq_ok]
  constructor
  · rintro ⟨hvalid, payload, ⟨hle, rfl⟩, hframe⟩
    exact ⟨hvalid, hle, hframe⟩
  · rintro ⟨hvalid, hle, hframe⟩
    exact ⟨hvalid, _, ⟨hle, rfl⟩, hframe⟩

theorem isWhitespace_hexChars (bytes : Bytes) : ∀ c ∈ hexChars bytes, isWhitespace c = false := by
  have hdigit : ∀ n < 16, isWhitespace (hexDigit n) = false := by decide
  intro c hc
  obtain ⟨b, -, hc⟩ := mem_flatMap.1 hc
  have hb : b.toNat < 256 := b.toNat_lt
  rcases mem_pair.1 hc with rfl | rfl
  · exact hdigit _ (by omega)
  · exact hdigit _ (by omega)

theorem trim_eq_self (h : ∀ c ∈ s.toList, isWhitespace c = false) : trim s = s := by
  have hfront : s.toList.dropWhile isWhitespace = s.toList :=
    dropWhile_eq_self_iff.2 fun hl => Bool.eq_false_iff.1 (h _ (getElem_mem hl))
  have hback : s.toList.rdropWhile isWhitespace = s.toList :=
    rdropWhile_eq_self_iff.2 fun hl => Bool.eq_false_iff.1 (h _ (getLast_mem hl))
  rw [trim, hfront, hback, String.ofList_toList]

theorem hexValue_of_isLowerHexByte (h : isLowerHexByte b = true) : (hexValue b).isSome = true := by
  rw [isLowerHexByte, Bool.or_eq_true] at h
  rw [hexValue]
  split_ifs with hupper hlower hdigit
  · rfl
  · rfl
  · rfl
  · exact absurd h.symm (not_or.2 ⟨hlower, hdigit⟩)

theorem legacyText_eq (h : fromUtf8 bytes = some text) : legacyText bytes =
    if (trim text).utf8ByteSize = 64 && (asBytes (trim text)).all fun b => (hexValue b).isSome then
      some (trim text)
    else none := by
  rw [legacyText, h]
  rfl

theorem legacyText_hashToHex (hash : FileHash) :
    legacyText (asBytes (hashToHex hash)) = some (hashToHex hash) := by
  have htrim : trim (hashToHex hash) = hashToHex hash := by
    apply trim_eq_self
    rw [hashToHex, hexEncode, String.toList_ofList]
    exact isWhitespace_hexChars hash.val
  have hdigits : (asBytes (hashToHex hash)).all (fun b => (hexValue b).isSome) = true := by
    rw [all_eq_true]
    exact fun b hb => hexValue_of_isLowerHexByte
      (all_eq_true.1 (isLowerHexByte_hexEncode hash.val) b hb)
  rw [legacyText_eq (fromUtf8_asBytes _), htrim, hdigits, ← asBytes_length, length_hashToHex]
  exact if_pos (by decide)

theorem legacyText_framed (h : headMagic <+: bytes) : legacyText bytes = none := by
  obtain ⟨rest, rfl⟩ := h
  have hmagic : headMagic = String.utf8EncodeChar 'O' ++ headMagic.drop 1 := by decide
  have hO : isWhitespace 'O' = false := by decide
  cases htext : fromUtf8 (headMagic ++ rest) with
  | none =>
    rw [legacyText, htext]
    rfl
  | some text =>
    have hchars : ∃ cs, text.toList = 'O' :: cs := by
      have hbytes := asBytes_fromUtf8 htext
      rw [asBytes_eq_flatMap, hmagic, append_assoc] at hbytes
      cases hlist : text.toList with
      | nil =>
        rw [hlist] at hbytes
        cases hbytes
      | cons c cs =>
        rw [hlist, flatMap_cons] at hbytes
        obtain ⟨rfl, -⟩ := utf8EncodeChar_append_inj hbytes
        exact ⟨cs, rfl⟩
    obtain ⟨cs, hcs⟩ := hchars
    have htrim : ∃ rest, trim text = String.ofList ('O' :: rest) := by
      have hfront : text.toList.dropWhile isWhitespace = 'O' :: cs := by
        rw [hcs, dropWhile_cons, hO]
        rfl
      obtain ⟨tail, htail⟩ := rdropWhile_prefix isWhitespace ('O' :: cs)
      rw [trim, hfront]
      cases hback : ('O' :: cs).rdropWhile isWhitespace with
      | nil =>
        have hall := rdropWhile_eq_nil_iff.1 hback 'O' mem_cons_self
        rw [hO] at hall
        cases hall
      | cons c front =>
        rw [hback] at htail
        obtain ⟨rfl, -⟩ := List.cons.inj htail
        exact ⟨front, rfl⟩
    obtain ⟨front, hfront⟩ := htrim
    have hdigit : (asBytes (trim text)).all (fun b => (hexValue b).isSome) = false := by
      rw [hfront, asBytes_ofList, flatMap_cons, all_append]
      rfl
    rw [legacyText_eq htext, hdigit, Bool.and_false]
    rfl

theorem decode_bare (hash : FileHash) (vaultId : String) :
    decode json hashBytes vaultId (asBytes (hashToHex hash)) = .ok ⟨some hash, ⟨[], .nil⟩⟩ := by
  have hsize : reject (maxRootHeadBytes < (asBytes (hashToHex hash)).length)
      "root head byte capacity exceeded" = .ok () := by
    rw [length_hashToHex]
    decide
  refine bind_eq_ok.2 ⟨(), hsize, ?_⟩
  rw [legacyText_hashToHex]
  exact bind_eq_ok.2 ⟨hash, require_eq_ok.2 (hexToHash_hashToHex hash), rfl⟩

theorem frame_iff : (headPrefixBytes ≤ bytes.length ∧ headMagic <+: bytes ∧
      bytes[headMagic.length + 64]? = some 10 ∧
      (bytes.drop headMagic.length).take 64 =
        asBytes (checksumHex hashBytes (bytes.drop headPrefixBytes)) ∧
      bytes.drop headPrefixBytes = payload) ↔
    framePayload hashBytes payload = bytes := by
  have hpre : headPrefixBytes = headMagic.length + 65 := rfl
  have hdrop (rest : Bytes) : (headMagic ++ rest).drop headPrefixBytes = rest.drop 65 := by
    rw [hpre, ← drop_drop, drop_left]
  constructor
  · rintro ⟨hlen, ⟨rest, rfl⟩, hnewline, hchecksum, rfl⟩
    rw [hdrop, drop_left] at hchecksum
    rw [getElem?_append_right (Nat.le_add_right _ _), Nat.add_sub_cancel_left] at hnewline
    have hrest : rest.drop 64 = 10 :: rest.drop 65 := by
      obtain ⟨hlt, hget⟩ := List.getElem?_eq_some_iff.1 hnewline
      rw [drop_eq_getElem_cons hlt, hget]
    rw [framePayload, hdrop, ← hchecksum, append_assoc, append_assoc,
      singleton_append, ← hrest, take_append_drop]
  · rintro rfl
    have hframe : framePayload hashBytes payload =
        headMagic ++ (asBytes (checksumHex hashBytes payload) ++ 10 :: payload) := by
      rw [framePayload, append_assoc, append_assoc, singleton_append]
    have hlen : (asBytes (checksumHex hashBytes payload)).length = 64 := length_hashToHex _
    rw [hframe, hdrop, drop_left]
    generalize hc : asBytes (checksumHex hashBytes payload) = checksum at hlen ⊢
    have hpayload : (checksum ++ 10 :: payload).drop 65 = payload := by
      have hskip : 65 = checksum.length + 1 := by rw [hlen]
      rw [hskip, ← drop_drop, drop_left]
      rfl
    refine ⟨?_, prefix_append _ _, ?_, ?_, hpayload⟩
    · rw [hpre, length_append, length_append, hlen, length_cons]
      omega
    · rw [getElem?_append_right (Nat.le_add_right _ _), Nat.add_sub_cancel_left, ← hlen,
        getElem?_append_right le_rfl, Nat.sub_self]
      rfl
    · rw [hpayload, hc, ← hlen, take_left]

theorem decodeFramed_eq_ok : decodeFramed json hashBytes vaultId bytes = .ok head ↔
    ∃ payload, framePayload hashBytes payload = bytes ∧
      ∃ parsed, json.fromSlice payload = some parsed ∧ parsed.schema = 1 ∧
        parsed.vaultId = vaultId ∧ (parsed.rootHash.any fun h => !lowerHex h 64) = false ∧
        parsed.rootHash.mapM (fun h => require (hexToHash h) "invalid root hash") =
          .ok head.rootHash ∧ parsed.receipts = head.receipts ∧
        validateHead json head = .ok () ∧ payloadBytes json vaultId head = .ok payload := by
  simp only [decodeFramed, bind_eq_ok, exists_unit, reject_eq_ok, require_eq_ok, pure_eq_ok,
    Bool.or_eq_false_iff, decide_eq_false_iff_not, not_not, not_lt, Bool.not_eq_false',
    isPrefixOf_iff_prefix]
  constructor
  · rintro ⟨⟨hlen, hmagic⟩, ⟨hnewline, -⟩, hchecksum, parsed, hparsed, ⟨⟨hschema, hvault⟩, hlower⟩,
      rootHash, hroot, hvalid, canonical, hcanonical, rfl, rfl⟩
    exact ⟨_, frame_iff.1 ⟨hlen, hmagic, hnewline, hchecksum, rfl⟩, parsed, hparsed, hschema, hvault,
      hlower, hroot, rfl, hvalid, hcanonical⟩
  · rintro ⟨payload, hframe, parsed, hparsed, hschema, hvault, hlower, hroot, hreceipts, hvalid,
      hcanonical⟩
    obtain ⟨hlen, hmagic, hnewline, hchecksum, hpayload⟩ := frame_iff.2 hframe
    have hdigits : ((bytes.drop headMagic.length).take 64).all isLowerHexByte = true := by
      rw [hchecksum]
      exact isLowerHexByte_hexEncode _
    have hhead : (⟨head.rootHash, parsed.receipts⟩ : RootHead) = head := by rw [hreceipts]
    rw [hpayload] at hchecksum ⊢
    exact ⟨⟨hlen, hmagic⟩, ⟨hnewline, hdigits⟩, hchecksum, parsed, hparsed, ⟨⟨hschema, hvault⟩, hlower⟩,
      head.rootHash, hroot, hhead ▸ hvalid, payload, hhead ▸ hcanonical, rfl, hhead⟩

theorem decode_framed (h : headMagic <+: bytes) : decode json hashBytes vaultId bytes = .ok head ↔
    bytes.length ≤ maxRootHeadBytes ∧ decodeFramed json hashBytes vaultId bytes = .ok head := by
  simp only [decode, legacyText_framed h, bind_eq_ok, exists_unit, reject_eq_ok,
    decide_eq_false_iff_not, not_lt]

theorem prefix_framePayload (payload : Bytes) : headMagic <+: framePayload hashBytes payload :=
  (frame_iff.2 rfl).2.1

theorem length_framePayload :
    (framePayload hashBytes payload).length = headPrefixBytes + payload.length := by
  have hlen : (asBytes (checksumHex hashBytes payload)).length = 64 := length_hashToHex _
  rw [framePayload, length_append, length_append, length_append, hlen]
  rfl

theorem framePayload_inj (h : framePayload hashBytes payload = framePayload hashBytes payload') :
    payload = payload' := by
  obtain ⟨-, -, -, -, hpayload⟩ := frame_iff.2 h
  obtain ⟨-, -, -, -, hpayload'⟩ := frame_iff.2 (rfl : framePayload hashBytes payload' = _)
  exact hpayload.symm.trans hpayload'

theorem rootHash_payloadOf (rootHash : Option FileHash) :
    ((rootHash.map hashToHex).any fun h => !lowerHex h 64) = false ∧
      (rootHash.map hashToHex).mapM (fun h => require (hexToHash h) "invalid root hash") =
        .ok rootHash := by
  cases rootHash with
  | none => exact ⟨rfl, rfl⟩
  | some hash =>
    rw [Option.map_some, Option.any_some, lowerHex_hashToHex, Option.mapM_some, hexToHash_hashToHex]
    exact ⟨rfl, rfl⟩

theorem decode_framePayload (hvalid : validateHead json head = .ok ())
    (hfits : (json.printPayload (payloadOf vaultId head)).length ≤ maxRootHeadBytes - headPrefixBytes)
    (hjson : json.Canonical (payloadOf vaultId head)) :
    decode json hashBytes reader (framePayload hashBytes (json.printPayload (payloadOf vaultId head))) =
      .ok head' ↔ reader = vaultId ∧ head' = head := by
  obtain ⟨hlower, hhash⟩ := rootHash_payloadOf head.rootHash
  rw [decode_framed (prefix_framePayload _), decodeFramed_eq_ok]
  constructor
  · rintro ⟨-, payload, hframe, parsed, hparsed, -, rfl, -, hroot, hreceipts, -⟩
    rw [framePayload_inj hframe, hjson] at hparsed
    cases hparsed
    have hsame : (head.rootHash : Option FileHash) = head'.rootHash :=
      Except.ok.inj (hhash.symm.trans hroot)
    obtain ⟨rootHash, receipts⟩ := head
    obtain ⟨rootHash', receipts'⟩ := head'
    cases hsame
    cases hreceipts
    exact ⟨rfl, rfl⟩
  · rintro ⟨rfl, rfl⟩
    have hpre : headPrefixBytes ≤ maxRootHeadBytes := by decide
    refine ⟨?_, _, rfl, _, hjson, rfl, rfl, hlower, hhash, rfl, hvalid, ?_⟩
    · rw [length_framePayload]
      omega
    · exact boundedJson_eq_ok.2 ⟨hfits, rfl⟩

theorem decode_valid (h : decode json hashBytes vaultId bytes = .ok head) :
    validateHead json head = .ok () ∧ (headMagic <+: bytes → head.receipts.val ≠ [] →
      encode json hashBytes vaultId head = .ok bytes) := by
  by_cases hmagic : headMagic <+: bytes
  · obtain ⟨-, hframed⟩ := (decode_framed hmagic).1 h
    obtain ⟨payload, hframe, -, -, -, -, -, -, -, hvalid, hcanonical⟩ := decodeFramed_eq_ok.1 hframed
    obtain ⟨hfits, rfl⟩ := boundedJson_eq_ok.1 hcanonical
    exact ⟨hvalid, fun _ hne => (encode_framed hne).2 ⟨hvalid, hfits, hframe⟩⟩
  · refine ⟨?_, fun hmagic' => absurd hmagic' hmagic⟩
    cases hlegacy : legacyText bytes with
    | none =>
      simp only [decode, hlegacy, bind_eq_ok, exists_unit] at h
      obtain ⟨payload, hframe, -⟩ := decodeFramed_eq_ok.1 h.2
      exact absurd (hframe ▸ prefix_framePayload payload) hmagic
    | some trimmed =>
      simp only [decode, hlegacy, bind_eq_ok, exists_unit, pure_eq_ok] at h
      obtain ⟨-, hash, -, rfl⟩ := h
      rfl

theorem decode_encode_bare (hempty : head.receipts.val = [])
    (h : encode json hashBytes vaultId head = .ok bytes) :
    decode json hashBytes reader bytes = .ok head := by
  obtain ⟨⟨⟩, hvalid, -⟩ := bind_eq_ok.1 h
  obtain ⟨hash, hroot, hencode⟩ := encode_bare hvalid hempty
  rw [h] at hencode
  cases hencode
  rw [decode_bare]
  obtain ⟨rootHash, receipts, hsorted⟩ := head
  cases hroot
  cases hempty
  rfl

theorem decode_encode (h : encode json hashBytes vaultId head = .ok bytes)
    (hjson : head.receipts.val ≠ [] → json.Canonical (payloadOf vaultId head)) :
    decode json hashBytes vaultId bytes = .ok head := by
  by_cases hempty : head.receipts.val = []
  · exact decode_encode_bare hempty h
  · obtain ⟨hvalid, hfits, rfl⟩ := (encode_framed hempty).1 h
    exact (decode_framePayload hvalid hfits (hjson hempty)).2 ⟨rfl, rfl⟩

theorem length_encode_le (h : encode json hashBytes vaultId head = .ok bytes) :
    bytes.length ≤ maxRootHeadBytes := by
  have hpre : headPrefixBytes ≤ maxRootHeadBytes := by decide
  by_cases hempty : head.receipts.val = []
  · obtain ⟨⟨⟩, hvalid, -⟩ := bind_eq_ok.1 h
    obtain ⟨hash, -, hencode⟩ := @encode_bare _ _ vaultId _ hvalid hempty
    rw [h] at hencode
    cases hencode
    rw [length_hashToHex]
    decide
  · obtain ⟨-, hfits, rfl⟩ := (encode_framed hempty).1 h
    rw [length_framePayload]
    omega

/-- A head is read back from what is written for it; what is accepted passes the check that is made
before writing, and a head without a root has cancellations only. A frame with receipts is written
the same again and is refused in another vault; without receipts a head is written as its bare hash,
which any vault reads. -/
theorem codec_canonical (json : SerdeJson) (hashBytes : Bytes → FileHash) (vaultId : String) :
    (∀ head, (∃ bytes, encode json hashBytes vaultId head = .ok bytes) ↔
      validateHead json head = .ok () ∧ (head.receipts.val ≠ [] →
        (json.printPayload (payloadOf vaultId head)).length ≤ maxRootHeadBytes - headPrefixBytes)) ∧
    (∀ head bytes, encode json hashBytes vaultId head = .ok bytes →
      (head.receipts.val ≠ [] → json.Canonical (payloadOf vaultId head)) →
      decode json hashBytes vaultId bytes = .ok head) ∧
    (∀ bytes head, decode json hashBytes vaultId bytes = .ok head →
      validateHead json head = .ok () ∧
      (head.rootHash = none → head.receipts.val ≠ [] ∧
        ∀ entry ∈ head.receipts.val, entry.2.isCancelled = true) ∧
      (headMagic <+: bytes → head.receipts.val ≠ [] →
        encode json hashBytes vaultId head = .ok bytes) ∧
      (head.receipts.val = [] → ∃ hash, head.rootHash = some hash ∧
        encode json hashBytes vaultId head = .ok (asBytes (hashToHex hash)))) ∧
    (∀ head bytes other, encode json hashBytes vaultId head = .ok bytes → other ≠ vaultId →
      (head.receipts.val ≠ [] → json.Canonical (payloadOf vaultId head) →
        ∃ error, decode json hashBytes other bytes = .error error) ∧
      (head.receipts.val = [] → decode json hashBytes other bytes = .ok head)) := by
  refine ⟨fun head => ?_, fun head bytes h hjson => ?_, fun bytes head h => ?_,
    fun head bytes other h hother => ⟨fun hne hjson => ?_, fun hempty => decode_encode_bare hempty h⟩⟩
  · by_cases hempty : head.receipts.val = []
    · constructor
      · rintro ⟨bytes, h⟩
        obtain ⟨⟨⟩, hvalid, -⟩ := bind_eq_ok.1 h
        exact ⟨hvalid, fun hne => absurd hempty hne⟩
      · rintro ⟨hvalid, -⟩
        obtain ⟨hash, -, hencode⟩ := encode_bare hvalid hempty
        exact ⟨_, hencode⟩
    · simp only [encode_framed hempty]
      exact ⟨fun ⟨_, hvalid, hfits, _⟩ => ⟨hvalid, fun _ => hfits⟩,
        fun ⟨hvalid, hfits⟩ => ⟨_, hvalid, hfits hempty, rfl⟩⟩
  · exact decode_encode h hjson
  · obtain ⟨hvalid, hsame⟩ := decode_valid h
    exact ⟨hvalid, validateHead_cancelled hvalid, hsame, encode_bare hvalid⟩
  · obtain ⟨hvalid, hfits, rfl⟩ := (encode_framed hne).1 h
    cases hdecode : decode json hashBytes other
        (framePayload hashBytes (json.printPayload (payloadOf vaultId head))) with
    | error error => exact ⟨error, rfl⟩
    | ok head' => exact absurd ((decode_framePayload hvalid hfits hjson).1 hdecode).1 hother

def zeroHash : FileHash := ⟨List.replicate 32 0, length_zeros⟩

def canned (vaultId : String) (head : RootHead) (text : String) : SerdeJson where
  printReceipt _ := []
  printPayload _ := asBytes text
  fromSlice bytes := if bytes = asBytes text then some (payloadOf vaultId head) else none

theorem canned_canonical (vaultId : String) (head : RootHead) (text : String) :
    (canned vaultId head text).Canonical (payloadOf vaultId head) :=
  if_pos rfl

def cancelledHead : RootHead where
  rootHash := none
  receipts := ⟨[("device", {
    sequence := 1
    mutationId := String.ofList (List.replicate 32 'a')
    requestHash := String.ofList (List.replicate 64 'b')
    result := ⟨.object [("cancelled", .bool true)],
      .object (List.pairwise_singleton _ _) (List.forall_mem_singleton.2 (.bool true))⟩ })],
    List.pairwise_singleton _ _⟩

def cancelledText : String :=
  "\x7b\"schema\":1,\"vault_id\":\"v\",\"root_hash\":null,\"receipts\":\x7b\"device\":\x7b\"sequence\":1," ++
    "\"mutation_id\":\"aaaaaaaaaaaaaaaaaaaaaaaaaaaaaaaa\",\"request_hash\":" ++
    "\"bbbbbbbbbbbbbbbbbbbbbbbbbbbbbbbbbbbbbbbbbbbbbbbbbbbbbbbbbbbbbbbb\"," ++
    "\"result\":\x7b\"cancelled\":true\x7d\x7d\x7d\x7d"

theorem codec_canonical_cancelled :
    let json := canned "v" cancelledHead cancelledText
    ∃ bytes, encode json (fun _ => zeroHash) "v" cancelledHead = .ok bytes ∧
      decode json (fun _ => zeroHash) "v" bytes = .ok cancelledHead ∧
      ∃ error, decode json (fun _ => zeroHash) "w" bytes = .error error := by
  intro json
  have hvalid : validateHead json cancelledHead = .ok () := by decide +kernel
  have hfits : (asBytes cancelledText).length ≤ maxRootHeadBytes - headPrefixBytes := by
    decide +kernel
  have hne : cancelledHead.receipts.val ≠ [] := cons_ne_nil _ _
  have hjson : json.Canonical (payloadOf "v" cancelledHead) := canned_canonical _ _ _
  obtain ⟨hencode, hread, -, hother⟩ := codec_canonical json (fun _ => zeroHash) "v"
  obtain ⟨bytes, hbytes⟩ := (hencode cancelledHead).2 ⟨hvalid, fun _ => hfits⟩
  exact ⟨bytes, hbytes, hread _ _ hbytes fun _ => hjson,
    (hother _ _ "w" hbytes (by decide)).1 hne hjson⟩

def bareHead : RootHead := ⟨some zeroHash, ⟨[], .nil⟩⟩

def bareText : String :=
  "\x7b\"schema\":1,\"vault_id\":\"v\",\"root_hash\":" ++
    "\"0000000000000000000000000000000000000000000000000000000000000000\",\"receipts\":\x7b\x7d\x7d"

/-- A head without receipts: what is written for it in one vault is read in another, and its frame
is accepted but not written again. -/
theorem bare_head_unconfined :
    let json := canned "v" bareHead bareText
    let framed := framePayload (fun _ => zeroHash) (asBytes bareText)
    (∃ bytes, encode json (fun _ => zeroHash) "v" bareHead = .ok bytes ∧
      decode json (fun _ => zeroHash) "w" bytes = .ok bareHead ∧ bytes ≠ framed) ∧
    headMagic <+: framed ∧ decode json (fun _ => zeroHash) "v" framed = .ok bareHead := by
  intro json framed
  have hvalid : validateHead json bareHead = .ok () := by decide +kernel
  have hfits : (asBytes bareText).length ≤ maxRootHeadBytes - headPrefixBytes := by decide +kernel
  have hencode : encode json (fun _ => zeroHash) "v" bareHead =
      .ok (asBytes (hashToHex zeroHash)) := by
    obtain ⟨hash, hroot, hencode⟩ := encode_bare hvalid rfl
    cases hroot
    exact hencode
  refine ⟨⟨_, hencode, decode_bare zeroHash "w", fun heq => ?_⟩, prefix_framePayload _,
    (decode_framePayload hvalid hfits (canned_canonical _ _ _)).2 ⟨rfl, rfl⟩⟩
  have hlen := congrArg List.length heq
  have hlong : 64 < headPrefixBytes := by decide
  rw [length_hashToHex, length_framePayload] at hlen
  omega

end RootHead

end Obsetync

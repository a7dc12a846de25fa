import Obsetync.Hex
import Obsetync.Json
import Obsetync.Wire
import Obsetync.Fallible

namespace Obsetync.Pack
open Wire Fallible Keyed
open List hiding take

/-- An error of the source is its text. -/
def reject (bad : Prop) [Decidable bad] (message : String) : Except String Unit :=
  if bad then .error message else .ok ()

def require {α : Type} (value : Option α) (message : String) : Except String α :=
  match value with
  | some a => .ok a
  | none => .error message

def segmentMagic : Bytes := asBytes "OSG1"
def segmentVersion : UInt8 := 1
def segmentHeaderBytes : Nat := 32
def recordMagic : Bytes := asBytes "OSR1"
def recordVersion : UInt8 := 1
def recordHeaderBytes : Nat := 56
def recordTrailerBytes : Nat := 4
def indexMagic : Bytes := asBytes "OSI1"
def indexVersion : UInt8 := 1
def indexHeaderBytes : Nat := 48
def indexEntryBytes : Nat := 64
def indexTrailerBytes : Nat := 32
def segmentTargetBytes : Nat := 256 * 1024 * 1024
def segmentObjectTarget : Nat := 262144
def maxSegmentBytes : Nat := 384 * 1024 * 1024
def maxSegmentObjects : Nat := segmentObjectTarget + 4096
def maxPackObjectBytes : Nat := 64 * 1024 * 1024
def maxSidecarBytes : Nat := indexHeaderBytes + maxSegmentObjects * indexEntryBytes + indexTrailerBytes

inductive PackedObjectKind
  | content
  | contentChunk
  | indexChunk
  | manifest
  deriving DecidableEq

def PackedObjectKind.code : PackedObjectKind → UInt8
  | .content => 0
  | .contentChunk => 1
  | .indexChunk => 2
  | .manifest => 3

def PackedObjectKind.tryFrom : UInt8 → Option PackedObjectKind
  | 0 => some .content
  | 1 => some .contentChunk
  | 2 => some .indexChunk
  | 3 => some .manifest
  | _ => none

structure ObjectKey where
  kind : PackedObjectKind
  hash : FileHash
  deriving DecidableEq

structure PackedObject extends ObjectKey where
  bytes : Bytes
  deriving DecidableEq

structure RecordLocation where
  segmentId : Nat
  recordOffset : Nat
  plainLen : Nat
  storedLen : Nat
  recordCrc32c : UInt32
  deriving DecidableEq

structure IndexEntry where
  key : ObjectKey
  location : RecordLocation
  deriving DecidableEq

/-- The derived order of the addresses. -/
def ObjectKey.order (key : ObjectKey) : Nat ×ₗ List Nat :=
  toLex (key.kind.code.toNat, key.hash.val.map UInt8.toNat)

/-- BLAKE3 and the JSON parser. -/
structure Env where
  hashBytes : Bytes → FileHash
  parseJson : Bytes → Option Json.Value

def crc32cRound (value : UInt32) : UInt32 :=
  if value &&& 1 = 1 then (0x82f63b78 : UInt32) ^^^ (value >>> 1) else value >>> 1

def crc32cTable (index : UInt32) : UInt32 := Nat.iterate crc32cRound 8 index

def Crc32c.update (state : UInt32) (bytes : Bytes) : UInt32 :=
  bytes.foldl (fun state byte => crc32cTable ((state ^^^ byte.toUInt32) &&& 0xff) ^^^ (state >>> 8)) state

def crc32c (bytes : Bytes) : UInt32 := ~~~ Crc32c.update 0xffffffff bytes

def fileHash (value : Json.Value) : Option String :=
  (value.asObject.bind fun fields => Assoc.find fields "file_hash").bind Json.Value.asStr

def validateManifest (env : Env) (hash : FileHash) (bytes : Bytes) : Except String Unit := do
  let value ← require (env.parseJson bytes) "manifest is not valid JSON"
  let declared ← require (fileHash value) "manifest has no file_hash"
  let declared ← require (hexToHash declared) "manifest file_hash is invalid"
  reject (declared ≠ hash) "manifest file_hash does not match its address"

def validateBytes (env : Env) (kind : PackedObjectKind) (hash : FileHash) (bytes : Bytes) :
    Except String Unit := do
  reject (maxPackObjectBytes < bytes.length) "object exceeds pack byte limit"
  if kind = .manifest then validateManifest env hash bytes
  else reject (env.hashBytes bytes ≠ hash) "plaintext BLAKE3 does not match its address"

def validateObject (env : Env) (object : PackedObject) : Except String Unit :=
  validateBytes env object.kind object.hash object.bytes

def paddingFor (rawLen : Nat) : Nat := (8 - rawLen % 8) % 8

def recordLength (storedLen : Nat) : Nat :=
  let rawLen := recordHeaderBytes + storedLen + recordTrailerBytes
  rawLen + paddingFor rawLen

def segmentHeader (segmentId : Nat) : Bytes :=
  let head := segmentMagic ++ [segmentVersion, 0, 0, 0] ++ leBytes 8 segmentId ++ List.replicate 8 0
  head ++ leBytes 4 (crc32c head).toNat ++ List.replicate 4 0

def recordHeader (object : PackedObject) : Bytes :=
  (recordMagic ++ [recordVersion]) ++ ([object.kind.code] ++ ([0, 0] ++ (object.hash.val ++
    (leBytes 8 object.bytes.length ++ leBytes 8 object.bytes.length))))

def recordCrc (header bytes : Bytes) : UInt32 := ~~~ Crc32c.update (Crc32c.update 0xffffffff header) bytes

def recordBytes (object : PackedObject) : Bytes :=
  recordHeader object ++ (object.bytes ++
    (leBytes recordTrailerBytes (recordCrc (recordHeader object) object.bytes).toNat ++
      List.replicate (paddingFor (recordHeaderBytes + object.bytes.length + recordTrailerBytes)) 0))

def entryAt (segmentId offset : Nat) (object : PackedObject) : IndexEntry :=
  ⟨object.toObjectKey, segmentId, offset, object.bytes.length, object.bytes.length,
    recordCrc (recordHeader object) object.bytes⟩

/-- The entries of records that are written one after the other. -/
def entriesFrom (segmentId : Nat) : Nat → List PackedObject → List IndexEntry
  | _, [] => []
  | offset, object :: objects => entryAt segmentId offset object ::
    entriesFrom segmentId (offset + (recordBytes object).length) objects

structure DecodedRecordHeader where
  key : ObjectKey
  plainLen : Nat
  storedLen : Nat

def readFixed (expected : Bytes) (message : String) : Reader String Unit := do
  let raw ← take message expected.length
  ask (reject (raw ≠ expected) message)

def readKind (message : String) : Reader String UInt8 := do
  let code ← uint message 1
  return UInt8.ofNat code

def readHash (message : String) : Reader String FileHash := do
  let raw ← take message 32
  if h : raw.length = 32 then return ⟨raw, h⟩ else ask (.error message)

def readRecordHeader : Reader String DecodedRecordHeader := do
  let message := "invalid record header"
  readFixed (recordMagic ++ [recordVersion]) message
  let code ← readKind message
  readFixed [0, 0] message
  let kind ← ask (require (PackedObjectKind.tryFrom code) "unknown packed object kind")
  let hash ← readHash message
  let plainLen ← uint message 8
  let storedLen ← uint message 8
  ask (reject (plainLen ≠ storedLen) "compressed records are not implemented")
  ask (reject (maxPackObjectBytes < storedLen) "record exceeds object byte limit")
  return ⟨⟨kind, hash⟩, plainLen, storedLen⟩

def decodeRecordHeader (header : Bytes) : Except String DecodedRecordHeader :=
  (readRecordHeader header).map Prod.fst

/-- A record that has all its bytes: its entry, unless it is corrupt. -/
def scanRecord (env : Env) (segmentId offset : Nat) (decoded : DecodedRecordHeader) (rest : Bytes) :
    Option IndexEntry :=
  let header := rest.take recordHeaderBytes
  let bytes := (rest.drop recordHeaderBytes).take decoded.storedLen
  let trailer := rest.drop (recordHeaderBytes + decoded.storedLen)
  let storedCrc := UInt32.ofNat (ofLe (trailer.take recordTrailerBytes))
  let padding := paddingFor (recordHeaderBytes + decoded.storedLen + recordTrailerBytes)
  if storedCrc = recordCrc header bytes ∧ ((trailer.drop recordTrailerBytes).take padding).all (· = 0) ∧
      validateBytes env decoded.key.kind decoded.key.hash bytes = .ok () then
    some ⟨decoded.key, segmentId, offset, decoded.plainLen, decoded.storedLen, storedCrc⟩
  else none

/-- The records from `offset` on, with the place where the segment ends. -/
def scanLoop (env : Env) (segmentId : Nat) (allowTailTruncate : Bool) :
    Nat → Nat → Nat → Bytes → Except String (List IndexEntry × Nat)
  | 0, _, offset, _ => .ok ([], offset)
  | fuel + 1, recordsSeen, offset, rest =>
    if rest = [] then .ok ([], offset) else do
      reject (maxSegmentObjects < recordsSeen + 1) "segment exceeds hard object limit"
      if rest.length < recordHeaderBytes then
        if allowTailTruncate then .ok ([], offset)
        else .error "sealed segment has a truncated record header"
      else do
        let decoded ← decodeRecordHeader (rest.take recordHeaderBytes)
        let length := recordLength decoded.storedLen
        if rest.length < length then
          if allowTailTruncate then .ok ([], offset)
          else .error "sealed segment has a truncated record"
        else do
          let (entries, segmentLen) ←
            scanLoop env segmentId allowTailTruncate fuel (recordsSeen + 1) (offset + length) (rest.drop length)
          return ((scanRecord env segmentId offset decoded rest).toList ++ entries, segmentLen)

def scanSegment (env : Env) (file : Bytes) (segmentId : Nat) (allowTailTruncate : Bool) :
    Except String (List IndexEntry × Nat) := do
  reject (maxSegmentBytes < file.length) "segment exceeds hard byte limit"
  scanLoop env segmentId allowTailTruncate file.length 0 segmentHeaderBytes (file.drop segmentHeaderBytes)

def encodeIndexEntry (entry : IndexEntry) : Bytes :=
  [entry.key.kind.code] ++ ([1, 0, 0] ++ (entry.key.hash.val ++ (leBytes 8 entry.location.recordOffset ++
    (leBytes 8 entry.location.plainLen ++ (leBytes 8 entry.location.storedLen ++
      leBytes 4 entry.location.recordCrc32c.toNat)))))

def insertAll {α : Type} (value : IndexEntry → α) (map : List (ObjectKey × α)) (entries : List IndexEntry) :
    List (ObjectKey × α) :=
  entries.foldl (fun map entry => Assoc.set map entry.key (value entry)) map

def canonical (entries : List IndexEntry) : List IndexEntry :=
  sortBy (fun entry => entry.key.order) ((insertAll id [] entries).map Prod.snd)

def sidecarHeader (segmentId segmentLen count : Nat) : Bytes :=
  (indexMagic ++ [indexVersion, 0, 0, 0]) ++ (leBytes 8 segmentId ++ (leBytes 8 segmentLen ++
    (leBytes 8 count ++ (leBytes 8 (count * indexEntryBytes) ++ List.replicate 8 0))))

def writeSidecar (env : Env) (segmentId segmentLen : Nat) (entries : List IndexEntry) :
    Except String Bytes := do
  let entries := canonical entries
  reject (maxSegmentObjects < entries.length) "sidecar exceeds hard object limit"
  let output := sidecarHeader segmentId segmentLen entries.length ++ entries.flatMap encodeIndexEntry
  return output ++ (env.hashBytes output).val

def readIndexEntry (segmentId segmentLen : Nat) : Reader String IndexEntry := do
  let message := "invalid sidecar entry"
  let code ← readKind message
  readFixed [1, 0, 0] message
  let kind ← ask (require (PackedObjectKind.tryFrom code) "unknown packed object kind")
  let hash ← readHash message
  let recordOffset ← uint message 8
  let plainLen ← uint message 8
  let storedLen ← uint message 8
  let crc ← uint message 4
  ask (reject (recordOffset < segmentHeaderBytes ∨ segmentLen ≤ recordOffset ∨ plainLen ≠ storedLen ∨
    maxPackObjectBytes < storedLen) "sidecar entry is out of bounds")
  ask (reject (2 ^ 64 ≤ recordOffset + recordLength storedLen) "sidecar record bound overflow")
  ask (reject (segmentLen < recordOffset + recordLength storedLen) "sidecar entry crosses segment end")
  return ⟨⟨kind, hash⟩, segmentId, recordOffset, plainLen, storedLen, UInt32.ofNat crc⟩

def readIndexEntries (segmentId segmentLen : Nat) :
    Nat → Option ObjectKey → Reader String (List IndexEntry)
  | 0, _ => pure []
  | count + 1, previous => do
    let entry ← readIndexEntry segmentId segmentLen
    ask (reject (∃ key ∈ previous, entry.key.order ≤ key.order) "sidecar entries are not strictly sorted")
    let entries ← readIndexEntries segmentId segmentLen count (some entry.key)
    return entry :: entries

structure SidecarHeader where
  id : Nat
  segmentLen : Nat
  count : Nat
  entriesLen : Nat

def readSidecarHeader : Reader String SidecarHeader := do
  let message := "invalid sidecar header"
  readFixed (indexMagic ++ [indexVersion, 0, 0, 0]) message
  let id ← uint message 8
  let segmentLen ← uint message 8
  let count ← uint message 8
  let entriesLen ← uint message 8
  readFixed (List.replicate 8 0) message
  return ⟨id, segmentLen, count, entriesLen⟩

def loadSidecar (env : Env) (segmentId segmentLen : Nat) (bytes : Bytes) :
    Except String (List IndexEntry) := do
  reject (maxSidecarBytes < bytes.length) "sidecar exceeds hard byte limit"
  reject (bytes.length < indexHeaderBytes + indexTrailerBytes) "sidecar is truncated"
  let (header, rest) ← readSidecarHeader bytes
  reject (header.id ≠ segmentId ∨ header.segmentLen ≠ segmentLen) "sidecar does not match segment"
  reject (maxSegmentObjects < header.count) "sidecar exceeds hard object limit"
  reject (header.entriesLen ≠ header.count * indexEntryBytes) "sidecar count/length mismatch"
  let trailerStart := indexHeaderBytes + header.entriesLen
  reject (bytes.length ≠ trailerStart + indexTrailerBytes) "sidecar file length mismatch"
  reject ((env.hashBytes (bytes.take trailerStart)).val ≠ bytes.drop trailerStart) "sidecar checksum mismatch"
  let (entries, _) ← readIndexEntries segmentId segmentLen header.count none rest
  return entries

section Codec

variable {env : Env} {segmentId segmentLen offset : Nat} {object : PackedObject} {message : String}

@[simp] theorem reject_eq_ok [Decidable bad] : reject bad message = .ok () ↔ ¬ bad := by
  rw [reject]
  split_ifs with h <;> simp [h]

@[simp] theorem require_eq_ok : require value message = .ok a ↔ value = some a := by
  cases value <;> simp [require]

theorem tryFrom_code (kind : PackedObjectKind) : PackedObjectKind.tryFrom kind.code = some kind := by
  cases kind <;> rfl

theorem reads_fixed (expected : Bytes) : Reads (readFixed expected message) expected () := by
  intro rest
  rw [readFixed, bind_run]
  exact ⟨expected, rest, take_run.2 ⟨rfl, rfl⟩, ask_run.2 ⟨reject_eq_ok.2 (not_not.2 rfl), rfl⟩⟩

theorem reads_kind : Reads (readKind message) [code] code := by
  intro rest
  rw [readKind, bind_run]
  exact ⟨code.toNat, rest, uint_run.2 ⟨by simp [leBytes], code.toNat_lt⟩, by rw [UInt8.ofNat_toNat]; rfl⟩

theorem reads_hash (hash : FileHash) : Reads (readHash message) hash.val hash := by
  intro rest
  rw [readHash, bind_run]
  exact ⟨hash.val, rest, take_run.2 ⟨rfl, hash.property⟩, by rw [dif_pos hash.property]; rfl⟩

theorem length_recordHeader : (recordHeader object).length = recordHeaderBytes := by
  have hmagic : recordMagic.length = 4 := by decide
  simp only [recordHeader, length_append, hmagic, leBytes_length, object.hash.property,
    length_cons, length_nil, recordHeaderBytes]

theorem decodeRecordHeader_recordHeader (h : object.bytes.length ≤ maxPackObjectBytes) :
    decodeRecordHeader (recordHeader object) =
      .ok ⟨object.toObjectKey, object.bytes.length, object.bytes.length⟩ := by
  have hsize : object.bytes.length < 256 ^ 8 := h.trans_lt (by decide)
  have hread : Reads readRecordHeader (recordHeader object)
      ⟨object.toObjectKey, object.bytes.length, object.bytes.length⟩ := by
    refine (reads_fixed _).bind ((reads_kind).bind ((reads_fixed _).bind
      (Reads.ask_bind (require_eq_ok.2 (tryFrom_code _)) ((reads_hash _).bind
      ((reads_uint hsize).bind ?_)))))
    rw [← append_nil (leBytes 8 object.bytes.length)]
    exact (reads_uint hsize).bind (Reads.ask_bind (reject_eq_ok.2 (not_not.2 rfl))
      (Reads.ask_bind (reject_eq_ok.2 (not_lt.2 h)) Reads.pure))
  have hrun := hread []
  rw [append_nil] at hrun
  rw [decodeRecordHeader, hrun]
  rfl

theorem length_recordBytes : (recordBytes object).length = recordLength object.bytes.length := by
  simp only [recordBytes, length_append, length_recordHeader, leBytes_length, length_replicate,
    recordLength]
  omega

theorem recordLength_mod (storedLen : Nat) : recordLength storedLen % 8 = 0 := by
  simp only [recordLength, paddingFor]
  omega

theorem le_recordLength (storedLen : Nat) :
    recordHeaderBytes + storedLen + recordTrailerBytes ≤ recordLength storedLen :=
  Nat.le_add_right _ _

theorem scanRecord_recordBytes (h : validateObject env object = .ok ()) :
    scanRecord env segmentId offset ⟨object.toObjectKey, object.bytes.length, object.bytes.length⟩
      (recordBytes object ++ rest) = some (entryAt segmentId offset object) := by
  have hheader : (recordBytes object ++ rest).take recordHeaderBytes = recordHeader object := by
    rw [recordBytes, append_assoc, ← length_recordHeader, take_left]
  have hafter : (recordBytes object ++ rest).drop recordHeaderBytes = object.bytes ++
      (leBytes recordTrailerBytes (recordCrc (recordHeader object) object.bytes).toNat ++
        (List.replicate (paddingFor (recordHeaderBytes + object.bytes.length + recordTrailerBytes)) 0 ++
          rest)) := by
    rw [recordBytes, append_assoc, ← length_recordHeader, drop_left, append_assoc, append_assoc]
  have hcrc : UInt32.ofNat (ofLe (leBytes recordTrailerBytes
      (recordCrc (recordHeader object) object.bytes).toNat)) = recordCrc (recordHeader object) object.bytes := by
    rw [ofLe_leBytes (UInt32.toNat_lt _), UInt32.ofNat_toNat]
  have htrailer := drop_add_of_drop hafter rfl
  simp only [scanRecord, hheader, hafter, htrailer, take_left]
  rw [take_left' leBytes_length, drop_left' leBytes_length, take_left' length_replicate,
    hcrc, if_pos]
  · rfl
  · exact ⟨rfl, by simp, h⟩

theorem size_of_valid (h : validateObject env object = .ok ()) : object.bytes.length ≤ maxPackObjectBytes := by
  obtain ⟨⟨⟩, hsize, -⟩ := bind_eq_ok.1 h
  exact not_lt.1 (reject_eq_ok.1 hsize)

theorem scanLoop_records (hvalid : ∀ object ∈ objects, validateObject env object = .ok ())
    (hfuel : objects.length ≤ fuel) (hseen : seen + objects.length ≤ maxSegmentObjects) :
    scanLoop env segmentId allow fuel seen offset (objects.flatMap recordBytes) =
      .ok (entriesFrom segmentId offset objects, offset + (objects.flatMap recordBytes).length) := by
  induction objects generalizing fuel seen offset with
  | nil => cases fuel <;> rfl
  | cons object objects ih =>
    obtain ⟨hobject, hvalid⟩ := forall_mem_cons.1 hvalid
    rw [length_cons] at hfuel hseen
    obtain ⟨fuel, rfl⟩ := Nat.exists_eq_add_of_le' (Nat.one_le_of_lt hfuel)
    have hlength : (recordBytes object).length = recordLength object.bytes.length := length_recordBytes
    have hleast := le_recordLength object.bytes.length
    have hheader : (recordBytes object ++ objects.flatMap recordBytes).take recordHeaderBytes =
        recordHeader object := by
      rw [recordBytes, append_assoc, ← length_recordHeader, take_left]
    have hrest : (recordBytes object ++ objects.flatMap recordBytes).length =
        recordLength object.bytes.length + (objects.flatMap recordBytes).length := by
      rw [length_append, hlength]
    have hsome : recordBytes object ++ objects.flatMap recordBytes ≠ [] := by
      intro h
      rw [h, length_nil] at hrest
      rw [recordHeaderBytes] at hleast
      omega
    have hnext := @ih (offset + recordLength object.bytes.length) fuel (seen + 1) hvalid
      (Nat.le_of_succ_le_succ hfuel) (by omega)
    rw [flatMap_cons, scanLoop, if_neg hsome, bind_eq_ok]
    refine ⟨(), reject_eq_ok.2 (by omega), ?_⟩
    rw [if_neg (by rw [hrest]; omega), hheader, decodeRecordHeader_recordHeader (size_of_valid hobject), bind_eq_ok]
    refine ⟨_, rfl, ?_⟩
    rw [if_neg (by rw [hrest]; dsimp only; omega), drop_left' hlength, hnext, scanRecord_recordBytes hobject, hrest,
      entriesFrom, hlength, ← Nat.add_assoc]
    rfl

/-- A record of the segment, all of it before the end. -/
structure Within (segmentId segmentLen : Nat) (entry : IndexEntry) : Prop where
  segment : entry.location.segmentId = segmentId
  aligned : entry.location.recordOffset % 8 = 0
  start : segmentHeaderBytes ≤ entry.location.recordOffset
  plain : entry.location.plainLen = entry.location.storedLen
  size : entry.location.storedLen ≤ maxPackObjectBytes
  stop : entry.location.recordOffset + recordLength entry.location.storedLen ≤ segmentLen

theorem within_entriesFrom (hvalid : ∀ object ∈ objects, validateObject env object = .ok ())
    (hoffset : segmentHeaderBytes ≤ offset) (haligned : offset % 8 = 0)
    (hlen : offset + (objects.flatMap recordBytes).length ≤ segmentLen)
    (h : entry ∈ entriesFrom segmentId offset objects) : Within segmentId segmentLen entry := by
  induction objects generalizing offset with
  | nil => cases h
  | cons object objects ih =>
    obtain ⟨hobject, hvalid⟩ := forall_mem_cons.1 hvalid
    have hmod := recordLength_mod object.bytes.length
    rw [flatMap_cons, length_append, length_recordBytes] at hlen
    rw [entriesFrom, length_recordBytes] at h
    rcases mem_cons.1 h with rfl | h
    · exact ⟨rfl, haligned, hoffset, rfl, size_of_valid hobject,
        (Nat.le_add_right _ _).trans (by rwa [Nat.add_assoc])⟩
    · exact ih hvalid (by omega) (by omega) (by omega) h

theorem reads_indexEntry (hlen : segmentLen < 2 ^ 64) (h : Within segmentId segmentLen entry) :
    Reads (readIndexEntry segmentId segmentLen) (encodeIndexEntry entry) entry := by
  obtain ⟨⟨kind, hash⟩, id, offset, plainLen, storedLen, crc⟩ := entry
  obtain ⟨hid, -, hstart, hplain, hsize, hstop⟩ := h
  dsimp only at hid hstart hplain hsize hstop
  subst hid hplain
  have hleast := le_recordLength plainLen
  have hlimit : maxPackObjectBytes < 256 ^ 8 := by decide
  rw [recordHeaderBytes] at hleast
  have hoffset : offset < 256 ^ 8 := by omega
  have hlength : plainLen < 256 ^ 8 := by omega
  have hbounds : ¬ (offset < segmentHeaderBytes ∨ segmentLen ≤ offset ∨ plainLen ≠ plainLen ∨
      maxPackObjectBytes < plainLen) := by omega
  have hend : ¬ 2 ^ 64 ≤ offset + recordLength plainLen := by omega
  refine (reads_kind).bind ((reads_fixed _).bind (Reads.ask_bind (require_eq_ok.2 (tryFrom_code _))
    ((reads_hash _).bind ((reads_uint hoffset).bind ((reads_uint hlength).bind
    ((reads_uint hlength).bind ?_))))))
  rw [← append_nil (leBytes 4 _)]
  refine (reads_uint (UInt32.toNat_lt _)).bind (Reads.ask_bind (reject_eq_ok.2 hbounds)
    (Reads.ask_bind (reject_eq_ok.2 hend) (Reads.ask_bind (reject_eq_ok.2 (not_lt.2 hstop)) ?_)))
  rw [UInt32.ofNat_toNat]
  exact Reads.pure

theorem reads_indexEntries (hlen : segmentLen < 2 ^ 64)
    (hwithin : ∀ entry ∈ entries, Within segmentId segmentLen entry)
    (hsorted : Sorted (fun entry => entry.key.order) entries)
    (hprevious : ∀ key ∈ previous, ∀ entry ∈ entries, key.order < entry.key.order) :
    Reads (readIndexEntries segmentId segmentLen entries.length previous)
      (entries.flatMap encodeIndexEntry) entries := by
  induction entries generalizing previous with
  | nil => exact Reads.pure
  | cons entry entries ih =>
    obtain ⟨hentry, hwithin⟩ := forall_mem_cons.1 hwithin
    obtain ⟨hfirst, hsorted⟩ := pairwise_cons.1 hsorted
    have hnext : ∀ key ∈ some entry.key, ∀ later ∈ entries, key.order < later.key.order := by
      rintro key ⟨rfl⟩ later hlater
      exact hfirst later hlater
    have hafter : ¬ ∃ key ∈ previous, entry.key.order ≤ key.order := by
      rintro ⟨key, hkey, hle⟩
      exact absurd (hprevious key hkey entry mem_cons_self) (not_lt.2 hle)
    have htail := (ih hwithin hsorted hnext).bind (f := fun later => pure (entry :: later)) Reads.pure
    rw [append_nil] at htail
    exact (reads_indexEntry hlen hentry).bind (Reads.ask_bind (reject_eq_ok.2 hafter) htail)

theorem length_encodeIndexEntry : (encodeIndexEntry entry).length = indexEntryBytes := by
  simp only [encodeIndexEntry, length_append, leBytes_length, entry.key.hash.property, length_cons,
    length_nil, indexEntryBytes]

theorem length_sidecarHeader {count} :
    (sidecarHeader segmentId segmentLen count).length = indexHeaderBytes := by
  have hmagic : indexMagic.length = 4 := by decide
  simp only [sidecarHeader, length_append, hmagic, leBytes_length, length_replicate,
    length_cons, length_nil, indexHeaderBytes]

theorem reads_sidecarHeader {count} (hid : segmentId < 2 ^ 64) (hlen : segmentLen < 2 ^ 64)
    (hcount : count ≤ maxSegmentObjects) :
    Reads readSidecarHeader (sidecarHeader segmentId segmentLen count)
      ⟨segmentId, segmentLen, count, count * indexEntryBytes⟩ := by
  have hmax : maxSegmentObjects < 256 ^ 4 := by decide
  have hid' : segmentId < 256 ^ 8 := by omega
  have hlen' : segmentLen < 256 ^ 8 := by omega
  have hcount' : count < 256 ^ 8 := by omega
  have hentries : count * indexEntryBytes < 256 ^ 8 := by
    rw [indexEntryBytes]
    omega
  refine (reads_fixed _).bind ((reads_uint hid').bind ((reads_uint hlen').bind
    ((reads_uint hcount').bind ((reads_uint hentries).bind ?_))))
  rw [← append_nil (List.replicate 8 0)]
  exact (reads_fixed (List.replicate 8 0)).bind Reads.pure

end Codec

section Canonical

variable {α : Type} {value : IndexEntry → α} {m : List (ObjectKey × α)} {entries : List IndexEntry}
  {entry : IndexEntry} {key : ObjectKey}

def lastAt (entries : List IndexEntry) (key : ObjectKey) : Option IndexEntry :=
  entries.reverse.find? (·.key = key)

theorem lastAt_append (more : List IndexEntry) :
    lastAt (entries ++ more) key = (lastAt more key).or (lastAt entries key) := by
  rw [lastAt, reverse_append, find?_append]
  rfl

theorem lastAt_mem (h : lastAt entries key = some entry) : entry ∈ entries ∧ entry.key = key :=
  ⟨mem_reverse.1 (mem_of_find?_eq_some h), by simpa using find?_some h⟩

theorem find_insertAll :
    Assoc.find (insertAll value m entries) key = ((lastAt entries key).map value).or (Assoc.find m key) := by
  induction entries using List.reverseRecOn with
  | nil => rfl
  | append_singleton entries entry ih =>
    rw [insertAll, foldl_concat, ← insertAll, lastAt_append, Assoc.find_set, ih]
    by_cases h : entry.key = key
    · simp [lastAt, h]
    · simp [lastAt, h, Ne.symm h]

theorem nodup_insertAll (h : (m.map Prod.fst).Nodup) : ((insertAll value m entries).map Prod.fst).Nodup := by
  induction entries generalizing m with
  | nil => exact h
  | cons entry entries ih => exact ih (Assoc.nodup_set h)

theorem order_inj {left right : ObjectKey} (h : left.order = right.order) : left = right := by
  obtain ⟨hcode, hbytes⟩ := Prod.mk.inj (toLex.injective h)
  have hkind := tryFrom_code right.kind
  rw [← UInt8.toNat_inj.1 hcode, tryFrom_code, Option.some.injEq] at hkind
  have hhash : left.hash = right.hash :=
    Subtype.ext (map_injective_iff.2 (fun _ _ => UInt8.toNat_inj.1) hbytes)
  exact congrArg₂ ObjectKey.mk hkind hhash

theorem mem_canonical : entry ∈ canonical entries ↔ lastAt entries entry.key = some entry := by
  have hfind (key : ObjectKey) : Assoc.find (insertAll id [] entries) key = lastAt entries key := by
    rw [find_insertAll, Option.map_id, Assoc.find_nil, Option.or_none]
    rfl
  rw [canonical, sortBy_perm.mem_iff, mem_map]
  constructor
  · rintro ⟨⟨key, entry⟩, hmem, rfl⟩
    have hlast := Assoc.find_of_mem (nodup_insertAll (m := []) nodup_nil) hmem
    rw [hfind] at hlast
    rw [(lastAt_mem hlast).2, hlast]
  · intro h
    rw [← hfind] at h
    exact ⟨_, Assoc.mem_of_find h, rfl⟩

theorem canonical_sorted : Sorted (fun entry => entry.key.order) (canonical entries) := by
  apply sortBy_sorted
  have hkeys : ∀ pair ∈ insertAll id [] entries,
      ((fun entry : IndexEntry => entry.key.order) ∘ Prod.snd) pair = (ObjectKey.order ∘ Prod.fst) pair := by
    intro pair hmem
    have hlast := Assoc.find_of_mem (nodup_insertAll (m := []) nodup_nil) hmem
    rw [find_insertAll, Option.map_id, Assoc.find_nil, Option.or_none] at hlast
    exact congrArg ObjectKey.order (lastAt_mem hlast).2
  rw [map_map, map_congr_left hkeys, ← map_map]
  exact (nodup_insertAll (m := []) nodup_nil).map fun _ _ => order_inj

theorem lastAt_eq_some (hunique : ∀ a ∈ entries, ∀ b ∈ entries, a.key = b.key → a = b) :
    lastAt entries key = some entry ↔ entry ∈ entries ∧ entry.key = key := by
  constructor
  · exact lastAt_mem
  · rintro ⟨hmem, rfl⟩
    cases hlast : lastAt entries entry.key with
    | none => simpa using find?_eq_none.1 hlast entry (mem_reverse.2 hmem)
    | some other =>
      obtain ⟨hother, hkey⟩ := lastAt_mem hlast
      rw [hunique other hother entry hmem hkey]

theorem lastAt_canonical : lastAt (canonical entries) key = lastAt entries key := by
  apply Option.ext
  intro entry
  rw [lastAt_eq_some fun a ha b hb h => canonical_sorted.eq_of_key ha hb (congrArg ObjectKey.order h),
    mem_canonical]
  constructor
  · rintro ⟨h, rfl⟩
    exact h
  · intro h
    obtain rfl := (lastAt_mem h).2
    exact ⟨h, rfl⟩

theorem canonical_congr (h : ∀ key, lastAt entries key = lastAt more key) :
    canonical entries = canonical more := by
  apply canonical_sorted.eq_of_perm canonical_sorted
  rw [perm_ext_iff_of_nodup canonical_sorted.nodup canonical_sorted.nodup]
  intro entry
  rw [mem_canonical, mem_canonical, h]

theorem loadSidecar_writeSidecar (hid : segmentId < 2 ^ 64) (hlen : segmentLen < 2 ^ 64)
    (hwithin : ∀ entry ∈ entries, Within segmentId segmentLen entry)
    (h : writeSidecar env segmentId segmentLen entries = .ok bytes) :
    loadSidecar env segmentId segmentLen bytes = .ok (canonical entries) := by
  obtain ⟨⟨⟩, hcount, h⟩ := bind_eq_ok.1 h
  obtain rfl := pure_eq_ok.1 h
  rw [reject_eq_ok, not_lt] at hcount
  generalize houtput : sidecarHeader segmentId segmentLen (canonical entries).length ++
    (canonical entries).flatMap encodeIndexEntry = output
  have hlength : output.length = indexHeaderBytes + (canonical entries).length * indexEntryBytes := by
    rw [← houtput, length_append, length_sidecarHeader, length_flatMap]
    simp only [length_encodeIndexEntry, map_const', sum_replicate, smul_eq_mul]
  have htotal : (output ++ (env.hashBytes output).val).length =
      indexHeaderBytes + (canonical entries).length * indexEntryBytes + indexTrailerBytes := by
    rw [length_append, hlength, (env.hashBytes output).property]
    rfl
  have hbytes : (canonical entries).length * indexEntryBytes ≤ maxSegmentObjects * indexEntryBytes :=
    Nat.mul_le_mul_right _ hcount
  have hheader := reads_sidecarHeader hid hlen hcount
    ((canonical entries).flatMap encodeIndexEntry ++ (env.hashBytes output).val)
  rw [← append_assoc, houtput] at hheader
  have hentries : Reads (readIndexEntries segmentId segmentLen (canonical entries).length none) _ _ :=
    reads_indexEntries hlen (fun entry h => hwithin entry (lastAt_mem (mem_canonical.1 h)).1)
      canonical_sorted nofun
  simp only [loadSidecar, bind_eq_ok, exists_unit, reject_eq_ok, hheader, hentries _, Except.ok.injEq,
    exists_eq_left', htotal, ← hlength, take_left, drop_left, pure_eq_ok]
  rw [hlength, maxSidecarBytes]
  exact ⟨by omega, by omega, by simp, by omega, by simp, by simp, by simp, trivial⟩

end Canonical

end Obsetync.Pack

import Obsetync.DataLane.Plugin
import Obsetync.DataLane.Responses
import Obsetync.Fallible
import Obsetync.VaultPath

/-! The bytes of `OBW2` fragments, as the server and the plugin write and read them. -/

namespace Obsetync.DataLane
open Wire Fallible
open List hiding take

def FrameType.code : FrameType → Nat
  | .hello => 1
  | .helloAck => 2
  | .checkObjects => 3
  | .checkResult => 4
  | .putPack => 5
  | .putAck => 6
  | .getPack => 7
  | .getResult => 8
  | .cancel => 9
  | .error => 10

def FrameType.ofCode : Nat → Option FrameType
  | 1 => some .hello
  | 2 => some .helloAck
  | 3 => some .checkObjects
  | 4 => some .checkResult
  | 5 => some .putPack
  | 6 => some .putAck
  | 7 => some .getPack
  | 8 => some .getResult
  | 9 => some .cancel
  | 10 => some .error
  | _ => none

structure ProtocolError where
  message : String
  deriving DecidableEq

def refuse (bad : Bool) (message : String) : Except ProtocolError Unit :=
  if bad then .error ⟨message⟩ else .ok ()

def require {α : Type} (value : Option α) (message : String) : Except ProtocolError α :=
  match value with
  | some a => .ok a
  | none => .error ⟨message⟩

def fragmentMagic : Bytes := asBytes "OBW2"
def fragmentHeaderBytes : Nat := 30

/-- `FRAGMENT_FIRST` and `FRAGMENT_LAST` where they belong. -/
def canonicalFlags (fragmentIndex fragmentCount : Nat) : Nat :=
  (if fragmentIndex = 0 then 1 else 0) ||| if fragmentIndex + 1 = fragmentCount then 2 else 0

structure Header where
  magic : Bytes
  kind : Nat
  flags : Nat
  requestId : Nat
  fragmentLen : Nat
  logicalLen : Nat
  offset : Nat
  fragmentIndex : Nat
  fragmentCount : Nat

def truncatedHeader : ProtocolError := ⟨"truncated OBW2 fragment header"⟩

/-- The fields at their fixed places, one after the other. -/
def readHeader : Reader ProtocolError Header := do
  let magic ← take truncatedHeader 4
  let kind ← uint truncatedHeader 1
  let flags ← uint truncatedHeader 1
  let requestId ← uint truncatedHeader 8
  let fragmentLen ← uint truncatedHeader 4
  let logicalLen ← uint truncatedHeader 4
  let offset ← uint truncatedHeader 4
  let fragmentIndex ← uint truncatedHeader 2
  let fragmentCount ← uint truncatedHeader 2
  return ⟨magic, kind, flags, requestId, fragmentLen, logicalLen, offset, fragmentIndex, fragmentCount⟩

def Header.fragment (header : Header) (kind : FrameType) (payload : Bytes) : Fragment :=
  ⟨kind, header.requestId, header.logicalLen, header.offset, header.fragmentIndex,
    header.fragmentCount, payload⟩

/-- `decode_fragment` of the server. -/
def decodeFragment (input : Bytes) (maxLogicalBytes maxFragmentPayloadBytes maxFragments : Nat) :
    Except ProtocolError Fragment := do
  refuse (input.length < fragmentHeaderBytes) "truncated OBW2 fragment header"
  let (header, payload) ← readHeader input
  refuse (header.magic ≠ fragmentMagic) "invalid OBW2 fragment magic"
  let kind ← require (FrameType.ofCode header.kind) "unknown data frame type"
  refuse (header.flags &&& 0xFC ≠ 0) "unsupported OBW2 fragment flags"
  refuse (maxLogicalBytes < header.logicalLen || maxFragmentPayloadBytes < header.fragmentLen ||
    header.fragmentCount = 0 || maxFragments < header.fragmentCount)
    "OBW2 fragment exceeds negotiated limits"
  let canonicalCount ← require (fragmentCount header.logicalLen maxFragmentPayloadBytes)
    "invalid OBW2 fragment cap"
  let canonicalOffset := header.fragmentIndex * maxFragmentPayloadBytes
  refuse (2 ^ 64 ≤ canonicalOffset) "OBW2 fragment offset overflow"
  refuse (header.logicalLen < canonicalOffset) "OBW2 fragment starts past logical payload"
  let canonicalLen := min (header.logicalLen - canonicalOffset) maxFragmentPayloadBytes
  refuse (header.fragmentCount ≠ canonicalCount || header.fragmentCount ≤ header.fragmentIndex ||
    header.offset ≠ canonicalOffset || header.fragmentLen ≠ canonicalLen ||
    header.flags ≠ canonicalFlags header.fragmentIndex header.fragmentCount)
    "non-canonical OBW2 fragment metadata"
  refuse (input.length ≠ fragmentHeaderBytes + header.fragmentLen) "OBW2 fragment length mismatch"
  return header.fragment kind payload

/-- `decodeWsDataFragment` of the plugin. -/
def decodeWsDataFragment (lane : NegotiatedLane) (input : Bytes) : Except ProtocolError Fragment := do
  refuse (!Plugin.validFragmentLimits lane) "invalid OBW2 fragment limits"
  refuse (input.length < fragmentHeaderBytes) "truncated OBW2 fragment header"
  let (header, payload) ← readHeader input
  refuse (header.magic ≠ fragmentMagic) "invalid OBW2 fragment magic"
  let kind ← require (FrameType.ofCode header.kind) "unknown data frame type"
  refuse (header.flags &&& 0xFC ≠ 0) "unsupported OBW2 fragment flags"
  refuse (maxSafeInteger < header.requestId) "request id exceeds the safe integer range"
  refuse (lane.limits.maxPayloadBytes < header.logicalLen ||
    lane.maxFragmentPayloadBytes < header.fragmentLen || header.fragmentCount < 1 ||
    lane.maxFragments < header.fragmentCount) "OBW2 fragment exceeds negotiated limits"
  let canonicalCount ← require (fragmentCount header.logicalLen lane.maxFragmentPayloadBytes)
    "invalid OBW2 fragment cap"
  let canonicalOffset := header.fragmentIndex * lane.maxFragmentPayloadBytes
  refuse (maxSafeInteger < canonicalOffset || header.logicalLen < canonicalOffset)
    "OBW2 fragment starts past logical payload"
  let canonicalLength := min (header.logicalLen - canonicalOffset) lane.maxFragmentPayloadBytes
  refuse (header.fragmentCount ≠ canonicalCount || header.fragmentCount ≤ header.fragmentIndex ||
    header.offset ≠ canonicalOffset || header.fragmentLen ≠ canonicalLength ||
    header.flags ≠ canonicalFlags header.fragmentIndex header.fragmentCount)
    "non-canonical OBW2 fragment metadata"
  refuse (input.length ≠ fragmentHeaderBytes + header.fragmentLen) "OBW2 fragment length mismatch"
  return header.fragment kind payload

namespace Fragment

/-- The bytes that both encoders lay out. -/
def bytes (f : Fragment) : Bytes :=
  fragmentMagic ++ (leBytes 1 f.kind.code ++ (leBytes 1 (canonicalFlags f.fragmentIndex f.fragmentCount) ++
    (leBytes 8 f.requestId ++ (leBytes 4 f.payload.length ++ (leBytes 4 f.logicalLen ++
      (leBytes 4 f.offset ++ (leBytes 2 f.fragmentIndex ++ (leBytes 2 f.fragmentCount ++ f.payload))))))))

/-- The fields fit their places. -/
structure Fits (f : Fragment) : Prop where
  requestId : f.requestId < 256 ^ 8
  fragmentLen : f.payload.length < 256 ^ 4
  logicalLen : f.logicalLen < 256 ^ 4
  offset : f.offset < 256 ^ 4
  fragmentIndex : f.fragmentIndex < 256 ^ 2
  fragmentCount : f.fragmentCount < 256 ^ 2

end Fragment

/-- `encode_fragment` of the server. -/
def encodeFragmentBytes (f : Fragment) (maxFragmentPayloadBytes maxFragments : Nat) :
    Except ProtocolError Bytes := do
  refuse (2 ^ 32 ≤ f.logicalLen) "OBW2 logical length overflow"
  refuse (2 ^ 32 ≤ f.offset) "OBW2 offset overflow"
  refuse (2 ^ 32 ≤ f.payload.length) "OBW2 fragment length overflow"
  refuse (2 ^ 16 ≤ f.fragmentIndex) "OBW2 fragment index overflow"
  refuse (2 ^ 16 ≤ f.fragmentCount) "OBW2 fragment count overflow"
  refuse (f.fragmentCount = 0 || maxFragments < f.fragmentCount) "OBW2 fragment count exceeds limit"
  let _ ← decodeFragment f.bytes f.logicalLen maxFragmentPayloadBytes maxFragments
  return f.bytes

/-- `encodeWsDataFragment` of the plugin, down to the bytes. -/
def encodeWsDataFragmentBytes (lane : NegotiatedLane) (kind : FrameType) (requestId : Nat)
    (payload : Bytes) (fragmentIndex : Nat) : Option Bytes :=
  if maxSafeInteger < requestId then none
  else (Plugin.encodeWsDataFragment lane kind requestId payload fragmentIndex).map Fragment.bytes

variable {f : Fragment} {input : Bytes} {maxLogical maxPart maxParts : Nat}

@[simp] theorem refuse_eq_ok : refuse bad message = .ok () ↔ bad = false := by
  cases bad <;> simp [refuse]

@[simp] theorem require_eq_ok : require value message = .ok a ↔ value = some a := by
  cases value <;> simp [require]

theorem ofCode_eq_some : FrameType.ofCode n = some kind ↔ n = kind.code := by
  constructor
  · intro h
    unfold FrameType.ofCode at h
    split at h <;> cases h <;> rfl
  · rintro rfl
    cases kind <;> rfl

theorem code_lt (kind : FrameType) : kind.code < 256 ^ 1 := by
  cases kind <;> decide

theorem canonicalFlags_lt {count} : canonicalFlags index count < 256 ^ 1 ∧
    canonicalFlags index count &&& 0xFC = 0 := by
  rw [canonicalFlags]
  split_ifs <;> decide

def Header.bytes (h : Header) : Bytes :=
  h.magic ++ (leBytes 1 h.kind ++ (leBytes 1 h.flags ++ (leBytes 8 h.requestId ++
    (leBytes 4 h.fragmentLen ++ (leBytes 4 h.logicalLen ++ (leBytes 4 h.offset ++
      (leBytes 2 h.fragmentIndex ++ leBytes 2 h.fragmentCount)))))))

structure Header.Fits (h : Header) : Prop where
  magic : h.magic.length = 4
  kind : h.kind < 256 ^ 1
  flags : h.flags < 256 ^ 1
  requestId : h.requestId < 256 ^ 8
  fragmentLen : h.fragmentLen < 256 ^ 4
  logicalLen : h.logicalLen < 256 ^ 4
  offset : h.offset < 256 ^ 4
  fragmentIndex : h.fragmentIndex < 256 ^ 2
  fragmentCount : h.fragmentCount < 256 ^ 2

theorem readHeader_run : readHeader input = .ok (h, rest) ↔ input = h.bytes ++ rest ∧ h.Fits := by
  simp only [readHeader, bind_run, take_run, uint_run, pure_run]
  constructor
  · rintro ⟨magic, _, ⟨rfl, hmagic⟩, kind, _, ⟨rfl, hkind⟩, flags, _, ⟨rfl, hflags⟩, requestId, _,
      ⟨rfl, hrequestId⟩, fragmentLen, _, ⟨rfl, hfragmentLen⟩, logicalLen, _, ⟨rfl, hlogicalLen⟩, offset, _,
      ⟨rfl, hoffset⟩, fragmentIndex, _, ⟨rfl, hfragmentIndex⟩, fragmentCount, _, ⟨rfl, hfragmentCount⟩,
      rfl, rfl⟩
    exact ⟨by simp only [Header.bytes, append_assoc], hmagic, hkind, hflags, hrequestId, hfragmentLen,
      hlogicalLen, hoffset, hfragmentIndex, hfragmentCount⟩
  · rintro ⟨rfl, hfits⟩
    simp only [Header.bytes, append_assoc]
    exact ⟨_, _, ⟨rfl, hfits.magic⟩, _, _, ⟨rfl, hfits.kind⟩, _, _, ⟨rfl, hfits.flags⟩, _, _,
      ⟨rfl, hfits.requestId⟩, _, _, ⟨rfl, hfits.fragmentLen⟩, _, _, ⟨rfl, hfits.logicalLen⟩, _, _,
      ⟨rfl, hfits.offset⟩, _, _, ⟨rfl, hfits.fragmentIndex⟩, _, _, ⟨rfl, hfits.fragmentCount⟩, rfl, rfl⟩

theorem length_headerBytes {h : Header} (hfits : h.Fits) : h.bytes.length = fragmentHeaderBytes := by
  simp [Header.bytes, hfits.magic, fragmentHeaderBytes]

def Fragment.header (f : Fragment) : Header :=
  ⟨fragmentMagic, f.kind.code, canonicalFlags f.fragmentIndex f.fragmentCount, f.requestId,
    f.payload.length, f.logicalLen, f.offset, f.fragmentIndex, f.fragmentCount⟩

theorem bytes_eq_header : f.bytes = f.header.bytes ++ f.payload := by
  simp only [Fragment.bytes, Header.bytes, Fragment.header, append_assoc]

theorem header_fits (hfits : f.Fits) : f.header.Fits :=
  ⟨(by decide : fragmentMagic.length = 4), code_lt _, (canonicalFlags_lt).1, hfits.requestId, hfits.fragmentLen, hfits.logicalLen,
    hfits.offset, hfits.fragmentIndex, hfits.fragmentCount⟩

theorem header_eq {h : Header} (hmagic : h.magic = fragmentMagic) (hkind : h.kind = kind.code)
    (hflags : h.flags = canonicalFlags h.fragmentIndex h.fragmentCount)
    (hlen : h.fragmentLen = payload.length) : (h.fragment kind payload).header = h := by
  obtain ⟨magic, code, flags, requestId, fragmentLen, logicalLen, offset, index, count⟩ := h
  simp only at hmagic hkind hflags hlen
  subst hmagic hkind hflags hlen
  rfl

theorem parse_iff {h : Header} {payload : Bytes} {kind : FrameType} :
    (readHeader input = .ok (h, payload) ∧ h.magic = fragmentMagic ∧ FrameType.ofCode h.kind = some kind ∧
      h.flags = canonicalFlags h.fragmentIndex h.fragmentCount ∧
      input.length = fragmentHeaderBytes + h.fragmentLen) ↔
    (h.fragment kind payload).Fits ∧ input = (h.fragment kind payload).bytes ∧
      h = (h.fragment kind payload).header := by
  rw [readHeader_run, ofCode_eq_some]
  constructor
  · rintro ⟨⟨rfl, hfits⟩, hmagic, hkind, hflags, hlen⟩
    rw [length_append, length_headerBytes hfits] at hlen
    have hpayload : h.fragmentLen = payload.length := (Nat.add_left_cancel hlen).symm
    have hheader := header_eq hmagic hkind hflags hpayload
    refine ⟨⟨hfits.requestId, ?_, hfits.logicalLen, hfits.offset, hfits.fragmentIndex,
      hfits.fragmentCount⟩, ?_, hheader.symm⟩
    · exact hpayload ▸ hfits.fragmentLen
    · rw [bytes_eq_header, hheader]
      rfl
  · rintro ⟨hfits, hinput, hheader⟩
    have hh := header_fits hfits
    rw [← hheader] at hh
    rw [bytes_eq_header, ← hheader] at hinput
    have hpayload : h.fragmentLen = payload.length := congrArg Header.fragmentLen hheader
    refine ⟨⟨hinput, hh⟩, congrArg Header.magic hheader, congrArg Header.kind hheader,
      congrArg Header.flags hheader, ?_⟩
    rw [hinput, length_append, length_headerBytes hh, hpayload]
    rfl

theorem acceptsFragment_iff : acceptsFragment f maxLogical maxPart maxParts = true ↔
    f.logicalLen ≤ maxLogical ∧ f.payload.length ≤ maxPart ∧ f.fragmentCount ≠ 0 ∧
      f.fragmentCount ≤ maxParts ∧ some f.fragmentCount = fragmentCount f.logicalLen maxPart ∧
      f.fragmentIndex * maxPart ≤ f.logicalLen ∧ f.fragmentIndex < f.fragmentCount ∧
      f.offset = f.fragmentIndex * maxPart ∧
      f.payload.length = min (f.logicalLen - f.fragmentIndex * maxPart) maxPart := by
  simp only [acceptsFragment, Bool.and_eq_true, decide_eq_true_eq, and_assoc]

theorem headerBytes_le_bytes (hfits : f.Fits) : fragmentHeaderBytes ≤ f.bytes.length := by
  rw [bytes_eq_header, length_append, length_headerBytes (header_fits hfits)]
  exact Nat.le_add_right _ _

theorem decodeFragment_eq_ok : decodeFragment input maxLogical maxPart maxParts = .ok f ↔
    f.Fits ∧ acceptsFragment f maxLogical maxPart maxParts = true ∧ f.fragmentIndex * maxPart < 2 ^ 64 ∧
      input = f.bytes := by
  simp only [decodeFragment, bind_eq_ok, exists_unit, refuse_eq_ok, require_eq_ok, pure_eq_ok,
    decide_eq_false_iff_not, Bool.or_eq_false_iff, not_lt, not_le, ne_eq, not_not, acceptsFragment_iff]
  constructor
  · rintro ⟨-, ⟨h, payload⟩, hread, hmagic, kind, hkind, -, ⟨⟨⟨hlogical, hpart⟩, hzero⟩, hparts⟩, count,
      hcount, hover, hpast, ⟨⟨⟨⟨rfl, hindex⟩, hoffset⟩, hlen⟩, hflags⟩, hlength, rfl⟩
    obtain ⟨hfits, hinput, hheader⟩ := parse_iff.1 ⟨hread, hmagic, hkind, hflags, hlength⟩
    have hpayload : h.fragmentLen = payload.length := congrArg Header.fragmentLen hheader
    exact ⟨hfits, ⟨hlogical, hpayload ▸ hpart, hzero, hparts, hcount.symm, hpast, hindex, hoffset,
      hpayload ▸ hlen⟩, hover, hinput⟩
  · rintro ⟨hfits, ⟨hlogical, hpart, hzero, hparts, hcount, hpast, hindex, hoffset, hlen⟩, hover, rfl⟩
    obtain ⟨hread, hmagic, hkind, hflags, hlength⟩ :=
      (@parse_iff f.bytes f.header f.payload f.kind).2 ⟨hfits, rfl, rfl⟩
    exact ⟨headerBytes_le_bytes hfits, (f.header, f.payload), hread, hmagic, f.kind, hkind,
      (canonicalFlags_lt).2, ⟨⟨⟨hlogical, hpart⟩, hzero⟩, hparts⟩, f.fragmentCount, hcount.symm, hover,
      hpast, ⟨⟨⟨⟨rfl, hindex⟩, hoffset⟩, hlen⟩, hflags⟩, hlength, rfl⟩

theorem decodeWsDataFragment_eq_ok (hvalid : Plugin.validFragmentLimits lane = true) :
    decodeWsDataFragment lane input = .ok f ↔ f.requestId ≤ maxSafeInteger ∧ f.Fits ∧
      acceptsFragment f lane.limits.maxPayloadBytes lane.maxFragmentPayloadBytes lane.maxFragments = true ∧
      f.fragmentIndex * lane.maxFragmentPayloadBytes ≤ maxSafeInteger ∧ input = f.bytes := by
  simp only [decodeWsDataFragment, hvalid, bind_eq_ok, exists_unit, refuse_eq_ok, require_eq_ok, pure_eq_ok,
    decide_eq_false_iff_not, Bool.or_eq_false_iff, not_lt, not_le, ne_eq, not_not, acceptsFragment_iff,
    Bool.not_true, true_and, Nat.one_le_iff_ne_zero]
  constructor
  · rintro ⟨-, ⟨h, payload⟩, hread, hmagic, kind, hkind, -, hid, ⟨⟨⟨hlogical, hpart⟩, hzero⟩, hparts⟩,
      count, hcount, ⟨hover, hpast⟩, ⟨⟨⟨⟨rfl, hindex⟩, hoffset⟩, hlen⟩, hflags⟩, hlength, rfl⟩
    obtain ⟨hfits, hinput, hheader⟩ := parse_iff.1 ⟨hread, hmagic, hkind, hflags, hlength⟩
    have hpayload : h.fragmentLen = payload.length := congrArg Header.fragmentLen hheader
    exact ⟨hid, hfits, ⟨hlogical, hpayload ▸ hpart, hzero, hparts, hcount.symm, hpast, hindex, hoffset,
      hpayload ▸ hlen⟩, hover, hinput⟩
  · rintro ⟨hid, hfits, ⟨hlogical, hpart, hzero, hparts, hcount, hpast, hindex, hoffset, hlen⟩, hover, rfl⟩
    obtain ⟨hread, hmagic, hkind, hflags, hlength⟩ :=
      (@parse_iff f.bytes f.header f.payload f.kind).2 ⟨hfits, rfl, rfl⟩
    exact ⟨headerBytes_le_bytes hfits, (f.header, f.payload), hread, hmagic, f.kind, hkind,
      (canonicalFlags_lt).2, hid, ⟨⟨⟨hlogical, hpart⟩, hzero⟩, hparts⟩, f.fragmentCount, hcount.symm,
      ⟨hover, hpast⟩, ⟨⟨⟨⟨rfl, hindex⟩, hoffset⟩, hlen⟩, hflags⟩, hlength, rfl⟩

end Obsetync.DataLane

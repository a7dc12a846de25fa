import Obsetync.RootHead
import Obsetync.Wire

namespace Obsetync.RootOutcome
open Fallible Json Wire List

def maxRootBytes : Nat := 512 * 1024
def maxCommitRequestBytes : Nat := 704 * 1024
def maxCancelRequestBytes : Nat := 4 * 1024
def maxSequence : UInt64 := 9007199254740991
def protocolVersion : UInt32 := 1

structure RootCommit where
  serverIncarnation : String
  sequence : UInt64
  mutationId : String
  requestHash : String
  deriving DecidableEq

structure CommitRequest where
  protocolVersion : UInt32
  serverIncarnation : String
  sequence : UInt64
  mutationId : String
  parentRoot : String
  root : String
  deriving DecidableEq

structure CancelRequest where
  protocolVersion : UInt32
  serverIncarnation : String
  sequence : UInt64
  mutationId : String
  requestHash : String
  deriving DecidableEq

inductive ServerError
  | badRequest (message : String)
  | payloadTooLarge (message : String)
  | conflict (message : String)
  deriving DecidableEq

def invalid : ServerError := .badRequest "invalid root-outcome-v1 request"

def refuse (bad : Bool) (error : ServerError) : Except ServerError Unit :=
  if bad then .error error else .ok ()

/-- `map_err` of a result whose error is dropped. -/
def parsed {α : Type} (value : Option α) : Except ServerError α :=
  match value with
  | some a => .ok a
  | none => .error invalid

def hexField (value : String) (bytes : Nat) : Bool := lowerHex value (bytes * 2)

def validSequence (value : UInt64) : Bool := 1 ≤ value && value ≤ maxSequence

def badScope (vault device : String) : Bool :=
  vault.isEmpty || 128 < vault.utf8ByteSize || device.isEmpty || 128 < device.utf8ByteSize

structure RootOperation where
  sequence : UInt64
  vault : String
  device : String
  serverIncarnation : String
  mutationId : String
  parentRoot : String
  root : Bytes
  deriving DecidableEq

namespace RootOperation

def hashFields (op : RootOperation) : List Bytes :=
  [asBytes op.vault, asBytes op.device, asBytes op.serverIncarnation, asBytes op.mutationId,
    asBytes op.parentRoot, op.root]

def preimage (op : RootOperation) : Bytes :=
  asBytes "obsetync.root-commit.v1\x00" ++ leBytes 8 op.sequence.toNat ++ delimited 8 op.hashFields

def commit (hashBytes : Bytes → FileHash) (op : RootOperation) : RootCommit where
  serverIncarnation := op.serverIncarnation
  sequence := op.sequence
  mutationId := op.mutationId
  requestHash := hashToHex (hashBytes op.preimage)

def legacyBody (op : RootOperation) : Bytes :=
  asBytes (String.ofList (op.parentRoot.toList ++
    List.replicate (64 - op.parentRoot.toList.length) ' ')) ++ op.root

end RootOperation

section Decode

variable (fromSlice : Bytes → Option CommitRequest) (decode64 : String → Option Bytes)

/-- The part of `decode_commit` that comes before the hash. -/
def readOperation (bytes : Bytes) (vault device : String) : Except ServerError RootOperation := do
  refuse (maxCommitRequestBytes < bytes.length)
    (.payloadTooLarge "root commit request exceeds limit")
  let request ← parsed (fromSlice bytes)
  refuse (request.protocolVersion ≠ protocolVersion
    || !validSequence request.sequence
    || !hexField request.serverIncarnation 32
    || !hexField request.mutationId 16
    || (!request.parentRoot.isEmpty && !hexField request.parentRoot 32)
    || badScope vault device) invalid
  refuse ((maxRootBytes + 2) / 3 * 4 < request.root.utf8ByteSize)
    (.payloadTooLarge "root bytes exceed limit")
  let root ← parsed (decode64 request.root)
  refuse (maxRootBytes < root.length) (.payloadTooLarge "root bytes exceed limit")
  refuse root.isEmpty invalid
  return ⟨request.sequence, vault, device, request.serverIncarnation, request.mutationId,
    request.parentRoot, root⟩

def decodeCommit (hashBytes : Bytes → FileHash) (bytes : Bytes) (vault device : String) :
    Except ServerError (RootCommit × Bytes) := do
  let op ← readOperation fromSlice decode64 bytes vault device
  return (op.commit hashBytes, op.legacyBody)

def decodeCancel (fromSlice : Bytes → Option CancelRequest) (bytes : Bytes)
    (vault device : String) : Except ServerError RootCommit := do
  refuse (maxCancelRequestBytes < bytes.length)
    (.payloadTooLarge "root cancellation request exceeds limit")
  let request ← parsed (fromSlice bytes)
  refuse (request.protocolVersion ≠ protocolVersion
    || !validSequence request.sequence
    || !hexField request.serverIncarnation 32
    || !hexField request.mutationId 16
    || !hexField request.requestHash 32
    || badScope vault device) invalid
  return ⟨request.serverIncarnation, request.sequence, request.mutationId, request.requestHash⟩

end Decode

/-- The fields stand in the order of their names. -/
def terminalOutcome (incarnation : String) (receipt : RootReceipt) : Value :=
  .object [ ("mutation_id", .string receipt.mutationId),
    ("protocol_version", .number (.posInt protocolVersion.toUInt64)),
    ("request_hash", .string receipt.requestHash),
    ("result", receipt.result.val),
    ("sequence", .number (.posInt receipt.sequence)),
    ("server_incarnation", .string incarnation),
    ("status", .string (if receipt.isCancelled then "cancelled" else "accepted"))]

def matchesReceipt (commit : RootCommit) (receipt : RootReceipt) : Bool :=
  commit.mutationId = receipt.mutationId && commit.requestHash = receipt.requestHash

def admitNext (commit : RootCommit) (last : UInt64) (incarnation : String) :
    Except ServerError (Option Value) := do
  refuse (commit.sequence ≤ last)
    (.conflict "root mutation outcome expired; reconciliation required")
  refuse (commit.sequence ≠ last + 1)
    (.conflict "root mutation sequence gap; reconciliation required")
  refuse (commit.serverIncarnation ≠ incarnation)
    (.conflict "root mutation incarnation changed; outcome unknown, reconciliation required")
  return none

def replayOrAdmit (commit : RootCommit) (receipt : Option RootReceipt) (incarnation : String) :
    Except ServerError (Option Value) :=
  match receipt with
  | some receipt =>
    if commit.sequence = receipt.sequence then
      if matchesReceipt commit receipt then .ok (some (terminalOutcome incarnation receipt))
      else .error (.conflict "root mutation identity does not match stored request")
    else admitNext commit receipt.sequence incarnation
  | none => admitNext commit 0 incarnation

section

variable {fromSlice : Bytes → Option CommitRequest} {decode64 : String → Option Bytes}
variable {hashBytes : Bytes → FileHash} {bytes : Bytes} {vault device : String}
variable {op op' : RootOperation}

theorem refuse_eq_ok : refuse bad error = .ok () ↔ bad = false := by
  cases bad <;> simp [refuse]

theorem parsed_eq_ok : parsed value = .ok a ↔ value = some a := by
  cases value <;> simp [parsed]

structure RootOperation.Bounded (op : RootOperation) : Prop where
  vault : op.vault.utf8ByteSize ≤ 128
  device : op.device.utf8ByteSize ≤ 128
  serverIncarnation : hexField op.serverIncarnation 32 = true
  mutationId : hexField op.mutationId 16 = true
  parentRoot : op.parentRoot = "" ∨ hexField op.parentRoot 32 = true
  root : op.root.length ≤ maxRootBytes

theorem badScope_eq_false : badScope vault device = false ↔
    vault ≠ "" ∧ vault.utf8ByteSize ≤ 128 ∧ device ≠ "" ∧ device.utf8ByteSize ≤ 128 := by
  simp [badScope, and_assoc]

theorem readOperation_eq_ok : readOperation fromSlice decode64 bytes vault device = .ok op ↔
    bytes.length ≤ maxCommitRequestBytes ∧ ∃ request, fromSlice bytes = some request ∧
      request.protocolVersion = protocolVersion ∧ validSequence request.sequence = true ∧
      hexField request.serverIncarnation 32 = true ∧ hexField request.mutationId 16 = true ∧
      (request.parentRoot = "" ∨ hexField request.parentRoot 32 = true) ∧
      badScope vault device = false ∧
      request.root.utf8ByteSize ≤ (maxRootBytes + 2) / 3 * 4 ∧
      ∃ root, decode64 request.root = some root ∧ root.length ≤ maxRootBytes ∧ root ≠ [] ∧
        op = ⟨request.sequence, vault, device, request.serverIncarnation, request.mutationId,
          request.parentRoot, root⟩ := by
  simp only [readOperation, bind_eq_ok, exists_unit, refuse_eq_ok, parsed_eq_ok, pure_eq_ok,
    decide_eq_false_iff_not, Nat.not_lt, Bool.or_eq_false_iff, Bool.and_eq_false_iff,
    Bool.not_eq_false', ne_eq, not_not, isEmpty_eq_false_iff, String.isEmpty_iff, and_assoc,
    @eq_comm _ op]

theorem readOperation_bounded (h : readOperation fromSlice decode64 bytes vault device = .ok op) :
    op.Bounded := by
  obtain ⟨-, request, -, -, -, hincarnation, hmutation, hparent, hscope, -, root, -, hroot, -, rfl⟩ :=
    readOperation_eq_ok.1 h
  obtain ⟨-, hvault, -, hdevice⟩ := badScope_eq_false.1 hscope
  exact ⟨hvault, hdevice, hincarnation, hmutation, hparent, hroot⟩

theorem length_of_lowerHex (h : lowerHex value n = true) : (asBytes value).length = n := by
  rw [lowerHex, Bool.and_eq_true] at h
  rw [asBytes_length]
  exact of_decide_eq_true h.1

theorem RootOperation.Bounded.fits (h : op.Bounded) : ∀ field ∈ op.hashFields, field.length < 256 ^ 8 := by
  have hlimit : maxRootBytes < 256 ^ 8 := by decide
  have hparent : (asBytes op.parentRoot).length ≤ 64 := by
    rcases h.parentRoot with hempty | hhex
    · rw [hempty]
      exact Nat.zero_le _
    · exact (length_of_lowerHex hhex).le
  intro field hfield
  simp only [hashFields, mem_cons, not_mem_nil, or_false] at hfield
  rcases hfield with rfl | rfl | rfl | rfl | rfl | rfl
  · rw [asBytes_length]
    exact h.vault.trans_lt (by decide)
  · rw [asBytes_length]
    exact h.device.trans_lt (by decide)
  · rw [length_of_lowerHex h.serverIncarnation]
    decide
  · rw [length_of_lowerHex h.mutationId]
    decide
  · exact hparent.trans_lt (by decide)
  · exact h.root.trans_lt hlimit

theorem RootOperation.ext_hashFields (hsequence : op.sequence = op'.sequence)
    (hfields : op.hashFields = op'.hashFields) : op = op' := by
  simp only [hashFields, List.cons.injEq, asBytes_inj, and_true] at hfields
  obtain ⟨hvault, hdevice, hincarnation, hmutation, hparent, hroot⟩ := hfields
  cases op
  cases op'
  simp_all

theorem RootOperation.preimage_inj (h : op.Bounded) (h' : op'.Bounded)
    (heq : op.preimage = op'.preimage) : op = op' := by
  simp only [preimage, append_assoc, append_cancel_left_eq] at heq
  obtain ⟨hsequence, hfields⟩ := append_inj heq (by rw [leBytes_length, leBytes_length])
  apply ext_hashFields
  · exact UInt64.toNat_inj.1 (leBytes_inj op.sequence.toNat_lt op'.sequence.toNat_lt hsequence)
  · refine delimited_inj rfl (fun field hfield => ?_) hfields
    rcases mem_append.1 hfield with hfield | hfield
    · exact h.fits field hfield
    · exact h'.fits field hfield

theorem hashToHex_inj (h : hashToHex a = hashToHex b) : a = b := by
  have hread := hexToHash_hashToHex a
  rw [h, hexToHash_hashToHex] at hread
  exact (Option.some.inj hread).symm

theorem admitNext_ne_some : admitNext commit last incarnation ≠ .ok (some reply) := by
  simp only [admitNext, ne_eq, bind_eq_ok, pure_eq_ok, not_exists, not_and]
  exact fun _ _ _ _ _ _ => Option.some_ne_none _ ∘ Eq.symm

theorem replayOrAdmit_replay (h : replayOrAdmit commit receipt incarnation = .ok (some reply)) :
    ∃ stored, receipt = some stored ∧ commit.sequence = stored.sequence ∧
      commit.mutationId = stored.mutationId ∧ commit.requestHash = stored.requestHash ∧
      reply = terminalOutcome incarnation stored := by
  cases receipt with
  | none => exact absurd h admitNext_ne_some
  | some stored =>
    rw [replayOrAdmit] at h
    split at h
    next hsequence =>
      split at h
      next hmatch =>
        rw [matchesReceipt, Bool.and_eq_true, decide_eq_true_eq, decide_eq_true_eq] at hmatch
        exact ⟨stored, rfl, hsequence, hmatch.1, hmatch.2, (Option.some.inj (Except.ok.inj h)).symm⟩
      next => exact absurd h (by simp)
    next => exact absurd h admitNext_ne_some

end

/-- Two decoded requests with one hash input are one operation; without a collision of the two inputs, a
request that gets the stored outcome of an operation asks for that operation. -/
theorem request_hash_binds (fromSlice : Bytes → Option CommitRequest) (decode64 : String → Option Bytes)
    (hashBytes : Bytes → FileHash) {bytes bytes' : Bytes} {vault vault' device device' : String}
    {op op' : RootOperation} (h : readOperation fromSlice decode64 bytes vault device = .ok op)
    (h' : readOperation fromSlice decode64 bytes' vault' device' = .ok op') :
    (op.preimage = op'.preimage → op = op') ∧ ∀ commit body commit' body',
      decodeCommit fromSlice decode64 hashBytes bytes vault device = .ok (commit, body) →
      decodeCommit fromSlice decode64 hashBytes bytes' vault' device' = .ok (commit', body') →
      (hashBytes op.preimage = hashBytes op'.preimage → op.preimage = op'.preimage) →
      ∀ receipt : RootReceipt, receipt.requestHash = commit.requestHash →
        (commit'.requestHash = receipt.requestHash → op' = op ∧ body' = body) ∧
        ∀ incarnation reply, replayOrAdmit commit' (some receipt) incarnation = .ok (some reply) →
          op' = op ∧ body' = body := by
  have hinj := RootOperation.preimage_inj (readOperation_bounded h) (readOperation_bounded h')
  refine ⟨hinj, fun commit body commit' body' hcommit hcommit' hfree receipt hreceipt => ?_⟩
  rw [decodeCommit, h] at hcommit
  rw [decodeCommit, h'] at hcommit'
  obtain ⟨rfl, rfl⟩ := Prod.mk.inj (Except.ok.inj hcommit)
  obtain ⟨rfl, rfl⟩ := Prod.mk.inj (Except.ok.inj hcommit')
  have hsame : (op'.commit hashBytes).requestHash = receipt.requestHash →
      op' = op ∧ op'.legacyBody = op.legacyBody := fun heq => by
    have hop := hinj (hfree (hashToHex_inj (heq.trans hreceipt).symm))
    rw [hop]
    exact ⟨rfl, rfl⟩
  refine ⟨hsame, fun incarnation reply hreplay => ?_⟩
  obtain ⟨stored, hstored, -, -, hhash, -⟩ := replayOrAdmit_replay hreplay
  rw [← Option.some.inj hstored] at hhash
  exact hsame hhash

def sampleRequest (sequence : UInt64) : CommitRequest where
  protocolVersion := 1
  serverIncarnation := hashToHex RootHead.zeroHash
  sequence := sequence
  mutationId := hexEncode (List.replicate 16 0)
  parentRoot := ""
  root := "AA=="

def sampleOperation (sequence : UInt64) : RootOperation where
  sequence := sequence
  vault := "v"
  device := "d"
  serverIncarnation := hashToHex RootHead.zeroHash
  mutationId := hexEncode (List.replicate 16 0)
  parentRoot := ""
  root := [0]

def sampleJson (bytes : Bytes) : Option CommitRequest :=
  bytes.head?.map fun b => sampleRequest b.toUInt64

theorem request_hash_binds_sequence :
    let decode64 : String → Option Bytes := fun _ => some [0]
    readOperation sampleJson decode64 [1] "v" "d" = .ok (sampleOperation 1) ∧
    readOperation sampleJson decode64 [2] "v" "d" = .ok (sampleOperation 2) ∧
    (sampleOperation 1).preimage ≠ (sampleOperation 2).preimage := by
  intro decode64
  have hfirst : readOperation sampleJson decode64 [1] "v" "d" = .ok (sampleOperation 1) := by
    decide +kernel
  have hsecond : readOperation sampleJson decode64 [2] "v" "d" = .ok (sampleOperation 2) := by
    decide +kernel
  refine ⟨hfirst, hsecond, fun heq => ?_⟩
  have hsame := (request_hash_binds sampleJson decode64 (fun _ => RootHead.zeroHash) hfirst hsecond).1 heq
  exact absurd (congrArg RootOperation.sequence hsame) (by decide)

end Obsetync.RootOutcome

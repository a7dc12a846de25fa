import Obsetync.TreeV2.Exact
import Obsetync.VersionedRoot

namespace Obsetync.TreeV2
open Wire Fallible Keyed
open List hiding take

def storedRootHeaderBytes : Nat := 64
def maxStoredRootBytes : Nat := 16 * 1024

def replacementRootSerializedLength (vaultId deviceId : String)
    (childPaths : Option (String × String)) : Except ChunkError Nat := do
  validateRootId "vault" vaultId false
  validateRootId "device" deviceId true
  let fixed := storedRootHeaderBytes + vaultId.utf8ByteSize + deviceId.utf8ByteSize
  let capacity ← match childPaths with
    | some (minPath, maxPath) => do
      validatePath minPath
      validatePath maxPath
      reject (maxPath < minPath) "Tree v2 root range is inverted"
      pure (fixed + (2 + 48) + minPath.utf8ByteSize + maxPath.utf8ByteSize)
    | none => pure fixed
  reject (maxStoredRootBytes < capacity) "Tree v2 stored root exceeds the byte cap"
  return capacity

def RootNodeV2.serializedLength (root : RootNodeV2) : Except ChunkError Nat := do
  root.validate
  let replacement ← replacementRootSerializedLength root.vaultId root.deviceId
    (root.tree.child.map fun child => (child.minPath, child.maxPath))
  let capacity := if root.parentHash.isSome then replacement + 32 else replacement
  reject (maxStoredRootBytes < capacity) "Tree v2 stored root exceeds the byte cap"
  return capacity

def RootNodeV2.flags (root : RootNodeV2) : Nat :=
  (if root.parentHash.isSome then 1 else 0) ||| if root.tree.child.isSome then 2 else 0

def rootHeader (root : RootNodeV2) (hash : FileHash) (child : Bytes) : Bytes :=
  rootMagic ++ leBytes 4 treeVersion.toNat ++ leBytes 8 root.createdMs.toNat ++
    leBytes 8 root.tree.totalFiles.toNat ++ leBytes 2 root.vaultId.utf8ByteSize ++
    leBytes 2 root.deviceId.utf8ByteSize ++ leBytes 1 root.flags ++ [0, 0, 0] ++ hash.val ++
    (root.parentHash.elim [] Subtype.val) ++ child

def encodeChild : Option RangeRef → Except ChunkError Bytes
  | some child => do
    let record ← encodeRangeRef child
    return leBytes 2 child.height.toNat ++ record
  | none => .ok []

def RootNodeV2.serialize (hashBytes : Bytes → FileHash) (root : RootNodeV2) :
    Except ChunkError Bytes := do
  let _ ← root.serializedLength
  reject (2 ^ 16 ≤ root.vaultId.utf8ByteSize) "Tree v2 vault id is too long"
  reject (2 ^ 16 ≤ root.deviceId.utf8ByteSize) "Tree v2 device id is too long"
  let child ← encodeChild root.tree.child
  return rootHeader root (root.tree.hash hashBytes) child ++ asBytes root.vaultId ++
    asBytes root.deviceId

def optionally {α : Type} (present : Bool) (r : Reader ChunkError α) :
    Reader ChunkError (Option α) :=
  if present then do return some (← r) else return none

def decodeChild : Reader ChunkError RangeRef := do
  let height ← uint truncated 2
  decodeRangeRef (UInt16.ofNat height)

/-- The fields of a stored root and the hash it declares. -/
def decodeRoot : Reader ChunkError (RootNodeV2 × FileHash) := do
  let magic ← take truncated 4
  ask (reject (magic ≠ rootMagic) "unknown Tree v2 root magic")
  let version ← uint truncated 4
  ask (reject (version ≠ treeVersion.toNat) "unsupported Tree v2 root version")
  let createdMs ← uint truncated 8
  let totalFiles ← uint truncated 8
  let vaultLen ← uint truncated 2
  let deviceLen ← uint truncated 2
  let flags ← uint truncated 1
  ask (reject (flags &&& 0xfc ≠ 0) "Tree v2 stored root flags are invalid")
  let reserved ← take truncated 3
  ask (reject (reserved ≠ [0, 0, 0]) "Tree v2 stored root flags are invalid")
  let declaredHash ← readHash "Tree v2 root hash is truncated"
  let parentHash ← optionally (flags &&& 1 ≠ 0) (readHash "Tree v2 parent hash is truncated")
  let child ← optionally (flags &&& 2 ≠ 0) decodeChild
  ask (reject (vaultLen = 0 || maxRootIdBytes < vaultLen || maxRootIdBytes < deviceLen)
    "Tree v2 root identifier length is invalid")
  let vaultId ← readStr vaultLen "Tree v2 vault id is not UTF-8"
  let deviceId ← readStr deviceLen "Tree v2 device id is not UTF-8"
  return (⟨vaultId, UInt64.ofNat createdMs, ⟨treeVersion, UInt64.ofNat totalFiles, child⟩,
    parentHash, deviceId⟩, declaredHash)

def RootNodeV2.deserialize (hashBytes : Bytes → FileHash) (bytes : Bytes) :
    Except ChunkError RootNodeV2 := do
  reject (bytes.length < storedRootHeaderBytes || maxStoredRootBytes < bytes.length)
    "Tree v2 stored root length is invalid"
  let (root, declaredHash) ← readAll decodeRoot bytes
  root.validate
  reject (root.tree.hash hashBytes ≠ declaredHash) "Tree v2 declared root hash is invalid"
  return root

variable {hashBytes : Bytes → FileHash} {root root' : RootNodeV2} {bytes more rest : Bytes}
  {hash : FileHash}

structure ValidRoot (root : RootNodeV2) : Prop where
  shape : validateRootShape root.tree = .ok ()
  version : root.tree.version = treeVersion
  child : ∀ child ∈ root.tree.child, validateRange child = .ok ()
  vault_pos : 0 < root.vaultId.utf8ByteSize
  vault_le : root.vaultId.utf8ByteSize ≤ maxRootIdBytes
  device_le : root.deviceId.utf8ByteSize ≤ maxRootIdBytes

theorem validRoot_of_validate (h : root.validate = .ok ()) : ValidRoot root := by
  simp only [RootNodeV2.validate, bind_eq_ok, exists_unit, validateRootId, reject_eq_ok,
    Bool.or_eq_false_iff, Bool.not_false, Bool.not_true, Bool.true_and, decide_eq_false_iff_not,
    not_lt] at h
  obtain ⟨hshape, ⟨⟨hvault, hvaultLe⟩, -⟩, ⟨-, hdeviceLe⟩, -⟩ := h
  have hchild := hshape
  simp only [validateRootShape, bind_eq_ok, exists_unit, reject_eq_ok, decide_eq_false_iff_not,
    not_not] at hchild
  refine ⟨hshape, hchild.1, fun child hmem => ?_, ?_, hvaultLe, hdeviceLe⟩
  · have hrest := hchild.2
    rw [Option.mem_def.1 hmem] at hrest
    simp only [bind_eq_ok, exists_unit] at hrest
    exact hrest.2
  · apply Nat.pos_of_ne_zero
    intro hz
    rw [String.utf8ByteSize_eq_zero_iff.1 hz] at hvault
    cases hvault

def childRecord (root : RootNodeV2) : Bytes :=
  root.tree.child.elim [] fun child => leBytes 2 child.height.toNat ++ rangeRecord child

def rootRecord (root : RootNodeV2) (hash : FileHash) : Bytes :=
  rootHeader root hash (childRecord root) ++ asBytes root.vaultId ++ asBytes root.deviceId

theorem rootRecord_length (hash : FileHash) : (rootRecord root hash).length =
      storedRootHeaderBytes + root.vaultId.utf8ByteSize + root.deviceId.utf8ByteSize +
        (root.tree.child.elim 0 fun child =>
          (2 + 48) + child.minPath.utf8ByteSize + child.maxPath.utf8ByteSize) +
        if root.parentHash.isSome then 32 else 0 := by
  have hmagic : rootMagic.length = 4 := by decide
  have hparent : (root.parentHash.elim [] Subtype.val : Bytes).length =
      if root.parentHash.isSome then 32 else 0 := by
    cases root.parentHash with
    | none => rfl
    | some parent => exact parent.property
  have hchild : (childRecord root).length = root.tree.child.elim 0 fun child =>
      (2 + 48) + child.minPath.utf8ByteSize + child.maxPath.utf8ByteSize := by
    rw [childRecord]
    cases root.tree.child with
    | none => rfl
    | some child =>
      simp only [Option.elim_some, length_append, leBytes_length, rangeRecord_length,
        rangeRecordLen]
      omega
  simp only [rootRecord, rootHeader, length_append, leBytes_length, asBytes_length, hmagic,
    hparent, hchild, hash.property, storedRootHeaderBytes, length_cons, length_nil]
  omega

theorem validate_eq_ok : root.validate = .ok () ↔ validateRootShape root.tree = .ok () ∧
    validateRootId "vault" root.vaultId false = .ok () ∧
    validateRootId "device" root.deviceId true = .ok () := by
  simp only [RootNodeV2.validate, bind_eq_ok, exists_unit]

theorem replacementRootSerializedLength_eq_ok (hv : root.validate = .ok ()) :
    replacementRootSerializedLength root.vaultId root.deviceId
        (root.tree.child.map fun child => (child.minPath, child.maxPath)) = .ok n ↔
      n = storedRootHeaderBytes + root.vaultId.utf8ByteSize + root.deviceId.utf8ByteSize +
        (root.tree.child.elim 0 fun child =>
          (2 + 48) + child.minPath.utf8ByteSize + child.maxPath.utf8ByteSize) ∧
      n ≤ maxStoredRootBytes := by
  obtain ⟨-, hvault, hdevice⟩ := validate_eq_ok.1 hv
  have hchild := (validRoot_of_validate hv).child
  rw [replacementRootSerializedLength, hvault, hdevice]
  cases hc : root.tree.child with
  | none =>
    simp only [bind_eq_ok, pure_eq_ok, reject_eq_ok, decide_eq_false_iff_not, not_lt,
      Option.map_none, Option.elim_none, Nat.add_zero, exists_unit]
    constructor
    · rintro ⟨-, -, m, rfl, hle, rfl⟩
      exact ⟨rfl, hle⟩
    · rintro ⟨rfl, hle⟩
      exact ⟨trivial, trivial, _, rfl, hle, rfl⟩
  | some child =>
    have hrange := validateRange_eq_ok.1 (hchild child hc)
    simp only [bind_eq_ok, pure_eq_ok, reject_eq_ok, decide_eq_false_iff_not, not_lt,
      Option.map_some, Option.elim_some, exists_unit, hrange.minPath, hrange.maxPath,
      hrange.ordered, true_and]
    constructor
    · rintro ⟨m, rfl, hle, rfl⟩
      exact ⟨by omega, hle⟩
    · rintro ⟨rfl, hle⟩
      exact ⟨_, rfl, by omega, by omega⟩

theorem serializedLength_eq_ok (hash : FileHash) : root.serializedLength = .ok n ↔
    root.validate = .ok () ∧ n = (rootRecord root hash).length ∧ n ≤ maxStoredRootBytes := by
  rw [rootRecord_length]
  simp only [RootNodeV2.serializedLength, bind_eq_ok, exists_unit, reject_eq_ok, pure_eq_ok,
    decide_eq_false_iff_not, not_lt]
  constructor
  · rintro ⟨hv, m, hm, hle, rfl⟩
    obtain ⟨rfl, -⟩ := (replacementRootSerializedLength_eq_ok hv).1 hm
    refine ⟨hv, ?_, hle⟩
    split_ifs <;> rfl
  · rintro ⟨hv, rfl, hle⟩
    refine ⟨hv, _, (replacementRootSerializedLength_eq_ok hv).2 ⟨rfl, by omega⟩, ?_, ?_⟩
    · split_ifs at hle ⊢ <;> omega
    · split_ifs <;> rfl

theorem encodeChild_eq_ok (hv : ValidRoot root) :
    encodeChild root.tree.child = .ok record ↔ record = childRecord root := by
  rw [childRecord]
  cases hc : root.tree.child with
  | none =>
    change Except.ok [] = Except.ok record ↔ record = []
    rw [Except.ok.injEq, eq_comm]
  | some child =>
    simp only [encodeChild, bind_eq_ok, encodeRangeRef_eq_ok, pure_eq_ok, hv.child child hc,
      true_and, Option.elim_some]
    constructor
    · rintro ⟨_, rfl, rfl⟩
      rfl
    · rintro rfl
      exact ⟨_, rfl, rfl⟩

theorem serialize_eq_ok : root.serialize hashBytes = .ok bytes ↔
    root.validate = .ok () ∧ bytes.length ≤ maxStoredRootBytes ∧
      bytes = rootRecord root (root.tree.hash hashBytes) := by
  simp only [RootNodeV2.serialize, bind_eq_ok, exists_unit, reject_eq_ok, pure_eq_ok,
    decide_eq_false_iff_not, not_le]
  constructor
  · rintro ⟨n, hn, -, -, record, hchild, rfl⟩
    obtain ⟨hv, rfl, hle⟩ := (serializedLength_eq_ok (root.tree.hash hashBytes)).1 hn
    obtain rfl := (encodeChild_eq_ok (validRoot_of_validate hv)).1 hchild
    exact ⟨hv, hle, rfl⟩
  · rintro ⟨hv, hle, rfl⟩
    have hvalid := validRoot_of_validate hv
    refine ⟨_, (serializedLength_eq_ok (root.tree.hash hashBytes)).2 ⟨hv, rfl, hle⟩, ?_, ?_, _,
      (encodeChild_eq_ok hvalid).2 rfl, rfl⟩
    · exact lt_of_le_of_lt hvalid.vault_le (by decide)
    · exact lt_of_le_of_lt hvalid.device_le (by decide)

section Optionally

variable {α : Type} {r : Reader ChunkError α} {enc : α → Bytes} {x : Option α} {present : Bool}

theorem reads_optionally (h : ∀ a ∈ x, Reads r (enc a) a) :
    Reads (optionally x.isSome r) (x.elim [] enc) x := by
  cases x with
  | none => exact Reads.pure
  | some a => exact (h a rfl).last Reads.pure

theorem optionally_run {p : α → Prop}
    (hr : ∀ bytes a rest, r bytes = .ok (a, rest) → bytes = enc a ++ rest ∧ p a)
    (h : optionally present r bytes = .ok (x, rest)) :
    bytes = x.elim [] enc ++ rest ∧ present = x.isSome ∧ ∀ a ∈ x, p a := by
  rw [optionally] at h
  cases present with
  | false =>
    obtain ⟨rfl, rfl⟩ := pure_run.1 h
    exact ⟨rfl, rfl, nofun⟩
  | true =>
    obtain ⟨a, mid, ha, hpure⟩ := bind_run.1 h
    obtain ⟨rfl, rfl⟩ := pure_run.1 hpure
    obtain ⟨rfl, hp⟩ := hr _ _ _ ha
    exact ⟨rfl, rfl, fun a' ha' => by cases ha'; exact hp⟩

end Optionally

theorem reads_child (h : validateRange child = .ok ()) :
    Reads decodeChild (leBytes 2 child.height.toNat ++ rangeRecord child) child := by
  refine (reads_uint child.height.toNat_lt).bind ?_
  rw [UInt16.ofNat_toNat]
  exact reads_rangeRecord h

theorem decodeChild_run (h : decodeChild bytes = .ok (child, rest)) :
    bytes = leBytes 2 child.height.toNat ++ rangeRecord child ++ rest ∧
      validateRange child = .ok () := by
  obtain ⟨height, mid, hheight, hchild⟩ := bind_run.1 h
  obtain ⟨rfl, hlt⟩ := uint_run.1 hheight
  obtain ⟨rfl, hword, hv⟩ := decodeRangeRef_run hchild
  have hback : (UInt16.ofNat height).toNat = height := UInt16.toNat_ofNat_of_lt' hlt
  rw [hword, hback, append_assoc]
  exact ⟨rfl, hv⟩

theorem flags_spec : root.flags < 256 ^ 1 ∧ root.flags &&& 0xfc = 0 ∧
    decide (root.flags &&& 1 ≠ 0) = root.parentHash.isSome ∧
    decide (root.flags &&& 2 ≠ 0) = root.tree.child.isSome := by
  rw [RootNodeV2.flags]
  cases root.parentHash.isSome <;> cases root.tree.child.isSome <;> decide

theorem flags_inj {flags : Nat} (hlt : flags < 256 ^ 1) (hhigh : flags &&& 0xfc = 0)
    (hparent : decide (flags &&& 1 ≠ 0) = root.parentHash.isSome)
    (hchild : decide (flags &&& 2 ≠ 0) = root.tree.child.isSome) : flags = root.flags := by
  have hall : ∀ n : Fin 256, n.val &&& 0xfc = 0 →
      n.val = (if decide (n.val &&& 1 ≠ 0) = true then 1 else 0) |||
        if decide (n.val &&& 2 ≠ 0) = true then 2 else 0 := by
    decide +kernel
  have hflags := hall ⟨flags, hlt⟩ hhigh
  rw [hparent, hchild] at hflags
  exact hflags

theorem reads_root (hv : ValidRoot root) (hash : FileHash) :
    Reads decodeRoot (rootRecord root hash) (root, hash) := by
  obtain ⟨hflags, hhigh, hparent, hchild⟩ := flags_spec
  simp only [rootRecord, rootHeader, append_assoc]
  apply Reads.bind (reads_take (by decide))
  apply Reads.ask_bind (a := ()) (by decide)
  apply Reads.bind (reads_uint (by decide))
  apply Reads.ask_bind (a := ()) (by decide)
  apply Reads.bind (reads_uint root.createdMs.toNat_lt)
  apply Reads.bind (reads_uint root.tree.totalFiles.toNat_lt)
  apply Reads.bind (reads_uint (lt_of_le_of_lt hv.vault_le (by decide)))
  apply Reads.bind (reads_uint (lt_of_le_of_lt hv.device_le (by decide)))
  apply Reads.bind (reads_uint hflags)
  apply Reads.ask_bind
  · rw [reject_eq_ok]
    simp [hhigh]
  apply Reads.bind (reads_take (by decide))
  apply Reads.ask_bind (a := ()) (by decide)
  apply Reads.bind (reads_hash hash)
  rw [hparent, hchild]
  apply Reads.bind (reads_optionally fun parent _ => reads_hash parent)
  apply Reads.bind (reads_optionally fun child hmem => reads_child (hv.child child hmem))
  apply Reads.ask_bind
  · rw [reject_eq_ok]
    simp [hv.vault_pos.ne', hv.vault_le, hv.device_le]
  apply Reads.bind (reads_str root.vaultId)
  apply Reads.last (reads_str root.deviceId)
  rw [UInt64.ofNat_toNat, UInt64.ofNat_toNat, ← hv.version]
  exact Reads.pure

theorem decodeRoot_run (h : decodeRoot bytes = .ok ((root, hash), rest)) :
    bytes = rootRecord root hash ++ rest := by
  obtain ⟨magic, b₁, hmagic, h⟩ := bind_run.1 h
  obtain ⟨⟨⟩, b₂, hmagicCheck, h⟩ := bind_run.1 h
  obtain ⟨version, b₃, hversion, h⟩ := bind_run.1 h
  obtain ⟨⟨⟩, b₄, hversionCheck, h⟩ := bind_run.1 h
  obtain ⟨createdMs, b₅, hcreated, h⟩ := bind_run.1 h
  obtain ⟨totalFiles, b₆, htotal, h⟩ := bind_run.1 h
  obtain ⟨vaultLen, b₇, hvaultLen, h⟩ := bind_run.1 h
  obtain ⟨deviceLen, b₈, hdeviceLen, h⟩ := bind_run.1 h
  obtain ⟨flags, b₉, hflags, h⟩ := bind_run.1 h
  obtain ⟨⟨⟩, b₁₀, hflagsCheck, h⟩ := bind_run.1 h
  obtain ⟨reserved, b₁₁, hreserved, h⟩ := bind_run.1 h
  obtain ⟨⟨⟩, b₁₂, hreservedCheck, h⟩ := bind_run.1 h
  obtain ⟨declaredHash, b₁₃, hhash, h⟩ := bind_run.1 h
  obtain ⟨parentHash, b₁₄, hparent, h⟩ := bind_run.1 h
  obtain ⟨child, b₁₅, hchild, h⟩ := bind_run.1 h
  obtain ⟨⟨⟩, b₁₆, hidsCheck, h⟩ := bind_run.1 h
  obtain ⟨vaultId, b₁₇, hvault, h⟩ := bind_run.1 h
  obtain ⟨deviceId, b₁₈, hdevice, h⟩ := bind_run.1 h
  obtain ⟨heq, rfl⟩ := pure_run.1 h
  cases heq
  obtain ⟨rfl, -⟩ := take_run.1 hmagic
  obtain ⟨hmagicEq, rfl⟩ := ask_run.1 hmagicCheck
  obtain ⟨rfl, -⟩ := uint_run.1 hversion
  obtain ⟨hversionEq, rfl⟩ := ask_run.1 hversionCheck
  obtain ⟨rfl, hcreatedLt⟩ := uint_run.1 hcreated
  obtain ⟨rfl, htotalLt⟩ := uint_run.1 htotal
  obtain ⟨rfl, -⟩ := uint_run.1 hvaultLen
  obtain ⟨rfl, -⟩ := uint_run.1 hdeviceLen
  obtain ⟨rfl, hflagsLt⟩ := uint_run.1 hflags
  obtain ⟨hhigh, rfl⟩ := ask_run.1 hflagsCheck
  obtain ⟨rfl, -⟩ := take_run.1 hreserved
  obtain ⟨hzero, rfl⟩ := ask_run.1 hreservedCheck
  obtain rfl := readHash_run hhash
  obtain ⟨rfl, hparentFlag, -⟩ := optionally_run (p := fun _ => True)
    (fun _ _ _ hr => ⟨readHash_run hr, trivial⟩) hparent
  obtain ⟨rfl, hchildFlag, -⟩ := optionally_run (fun _ _ _ => decodeChild_run) hchild
  obtain ⟨-, rfl⟩ := ask_run.1 hidsCheck
  obtain ⟨rfl, rfl⟩ := readStr_run hvault
  obtain ⟨rfl, rfl⟩ := readStr_run hdevice
  rw [reject_eq_ok, decide_eq_false_iff_not, not_not] at hmagicEq hversionEq hhigh hzero
  subst hmagicEq hversionEq hzero
  obtain rfl := (@flags_inj ⟨vaultId, UInt64.ofNat createdMs,
    ⟨treeVersion, UInt64.ofNat totalFiles, child⟩, parentHash, deviceId⟩) hflagsLt hhigh
    hparentFlag hchildFlag
  simp only [rootRecord, rootHeader, childRecord, toNat_ofNat_of_uint64 hcreatedLt,
    toNat_ofNat_of_uint64 htotalLt, append_assoc]

theorem deserialize_iff :
    RootNodeV2.deserialize hashBytes bytes = .ok root ↔ root.serialize hashBytes = .ok bytes := by
  rw [serialize_eq_ok]
  simp only [RootNodeV2.deserialize, bind_eq_ok, exists_unit, reject_eq_ok, pure_eq_ok,
    Bool.or_eq_false_iff, decide_eq_false_iff_not, not_lt, not_not, readAll_iff]
  constructor
  · rintro ⟨⟨-, hle⟩, ⟨root', hash⟩, hread, hv, hhash, rfl⟩
    have hbytes := decodeRoot_run hread
    dsimp only at hhash
    rw [append_nil, ← hhash] at hbytes
    exact ⟨hv, hle, hbytes⟩
  · rintro ⟨hv, hle, rfl⟩
    have hread := reads_root (validRoot_of_validate hv) (root.tree.hash hashBytes) []
    rw [append_nil] at hread
    refine ⟨⟨?_, hle⟩, (root, root.tree.hash hashBytes), hread, hv, rfl, rfl⟩
    rw [rootRecord_length]
    omega

theorem serialize_of_valid (h : root.validate = .ok ()) :
    ∃ bytes, root.serialize hashBytes = .ok bytes := by
  have hv := validRoot_of_validate h
  refine ⟨_, serialize_eq_ok.2 ⟨h, ?_, rfl⟩⟩
  have hvault := hv.vault_le
  have hdevice := hv.device_le
  have hchild : (root.tree.child.elim 0 fun child =>
      (2 + 48) + child.minPath.utf8ByteSize + child.maxPath.utf8ByteSize) ≤ 8242 := by
    cases hc : root.tree.child with
    | none => exact Nat.zero_le _
    | some child =>
      have hrange := validateRange_eq_ok.1 (hv.child child hc)
      have hmin := (validatePath_size hrange.minPath).2
      have hmax := (validatePath_size hrange.maxPath).2
      simp only [Option.elim_some, maxPathBytes] at hmin hmax ⊢
      omega
  rw [rootRecord_length, storedRootHeaderBytes, maxStoredRootBytes]
  rw [maxRootIdBytes] at hvault hdevice
  split_ifs <;> omega

theorem deserialize_append_ne (h : RootNodeV2.deserialize hashBytes bytes = .ok root)
    (hmore : more ≠ []) (root' : RootNodeV2) :
    RootNodeV2.deserialize hashBytes (bytes ++ more) ≠ .ok root' := by
  intro h'
  obtain ⟨hv, -, rfl⟩ := serialize_eq_ok.1 (deserialize_iff.1 h)
  obtain ⟨hv', -, hbytes⟩ := serialize_eq_ok.1 (deserialize_iff.1 h')
  have hread := reads_root (validRoot_of_validate hv) (root.tree.hash hashBytes) more
  have hread' := reads_root (validRoot_of_validate hv') (root'.tree.hash hashBytes) []
  rw [append_nil, ← hbytes, hread, Except.ok.injEq, Prod.mk.injEq] at hread'
  exact hmore hread'.2

/-- A leaf, an internal node or a root and its bytes determine each other. `encode_leaf` also takes
no entries and `encode_internal` the height above the highest, which no tree has. -/
theorem codec_exact (hashBytes : Bytes → FileHash) :
    (∀ entries bytes, encodeLeaf entries = .ok bytes →
      bytes.length = leafHeaderBytes + (entries.map leafRecordLen).sum ∧
      (decodeNode bytes = .ok (.leaf entries) ↔ entries ≠ [])) ∧
    (∀ childHeight children bytes, encodeInternal childHeight children = .ok bytes →
      bytes.length = internalHeaderBytes + (children.map rangeRecordLen).sum ∧
      (decodeNode bytes = .ok (.internal childHeight children) ↔ childHeight < maxTreeDepth)) ∧
    (∀ root : RootNodeV2, root.validate = .ok () → ∃ bytes, root.serialize hashBytes = .ok bytes ∧
        root.serializedLength = .ok bytes.length ∧
        RootNodeV2.deserialize hashBytes bytes = .ok root) ∧
    (∀ bytes entries, decodeNode bytes = .ok (.leaf entries) → encodeLeaf entries = .ok bytes) ∧
    (∀ bytes childHeight children, decodeNode bytes = .ok (.internal childHeight children) →
      encodeInternal childHeight children = .ok bytes) ∧
    (∀ bytes root, RootNodeV2.deserialize hashBytes bytes = .ok root →
      root.serialize hashBytes = .ok bytes) ∧
    (∀ bytes more : Bytes, more ≠ [] →
      (∀ node node', decodeNode bytes = .ok node → decodeNode (bytes ++ more) ≠ .ok node') ∧
      ∀ root root', RootNodeV2.deserialize hashBytes bytes = .ok root →
        RootNodeV2.deserialize hashBytes (bytes ++ more) ≠ .ok root') := by
  refine ⟨fun entries bytes h => ⟨encodeLeaf_length h, ?_⟩,
    fun childHeight children bytes h => ⟨encodeInternal_length h, ?_⟩,
    fun root h => ?_,
    fun bytes entries h => (decodeNode_leaf_iff.1 h).2,
    fun bytes childHeight children h => (decodeNode_internal_iff.1 h).2,
    fun bytes root h => deserialize_iff.1 h, fun bytes more hmore => ⟨?_, ?_⟩⟩
  · rw [decodeNode_leaf_iff]
    exact and_iff_left h
  · rw [decodeNode_internal_iff]
    exact and_iff_left h
  · obtain ⟨bytes, hserialize⟩ := serialize_of_valid h
    obtain ⟨hv, hle, rfl⟩ := serialize_eq_ok.1 hserialize
    exact ⟨_, hserialize, (serializedLength_eq_ok (root.tree.hash hashBytes)).2 ⟨hv, rfl, hle⟩,
      deserialize_iff.2 hserialize⟩
  · exact fun node node' h => decodeNode_append_ne h hmore node'
  · exact fun root root' h => deserialize_append_ne h hmore root'

end Obsetync.TreeV2

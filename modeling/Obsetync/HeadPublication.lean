import Obsetync.Faults
import Obsetync.RootHead

namespace Obsetync.HeadPublication
open Faults RootHead List

/-- A regular file. One that is not synced can hold anything after a power loss. -/
structure File where
  bytes : Bytes
  synced : Bool
  deriving DecidableEq

/-- What a name leads to. -/
inductive Node
  | file (f : File)
  | other
  deriving DecidableEq

inductive DirState
  | present
  | missing
  | notDirectory
  deriving DecidableEq

/-- The directory of a vault: the names `current` and `current.tmp` as they are seen, the earlier
values of `current` that a power loss can bring back, and the path of the root history, from the
inside out. -/
structure Disk where
  current : Option Node
  temp : Option Node
  earlier : List (Option Node)
  directories : List DirState
  deriving DecidableEq

inductive IoError
  | io
  | refused (error : InvalidData)
  | invalid (error : InvalidData)
  deriving DecidableEq

namespace Disk

def mkdir (depth : Nat) (d : Disk) : Disk := {d with directories := d.directories.set depth .present}

def create (d : Disk) : Disk := {d with temp := some (.file ⟨[], false⟩)}

def append (part : Bytes) (d : Disk) : Disk :=
  match d.temp with
  | some (.file f) => {d with temp := some (.file ⟨f.bytes ++ part, false⟩)}
  | _ => d

def syncTemp (d : Disk) : Disk :=
  match d.temp with
  | some (.file f) => {d with temp := some (.file {f with synced := true})}
  | _ => d

def rename (d : Disk) : Disk :=
  {d with current := d.temp, temp := none, earlier := d.current :: d.earlier}

/-- Once all its directories are synced, the head is there to stay. -/
def settle (d : Disk) : Disk := {d with earlier := []}

def Survives : Option Node → Option Node → Prop
  | none, after => after = none
  | some .other, after => after = some .other
  | some (.file f), after => ∃ bytes, after = some (.file ⟨bytes, true⟩) ∧ (f.synced = true → bytes = f.bytes)

/-- A power loss takes `current` back to one of its values; the temporary is there or not, with any
contents, and directories can be gone. -/
structure PowerLoss (before after : Disk) : Prop where
  current : ∃ value ∈ before.current :: before.earlier, Survives value after.current
  temp : after.temp = some .other → before.temp = some .other
  earlier : after.earlier = []
  directories : .notDirectory ∈ after.directories → .notDirectory ∈ before.directories
  root : .present ∈ before.directories → .present ∈ after.directories

def Durable (d : Disk) : Prop :=
  d.earlier = [] ∧ ∀ f, d.current = some (.file f) → f.synced = true

/-- Nothing but a regular file is in the place of the temporary, and nothing but directories on the
path. -/
def Ready (d : Disk) : Prop :=
  d.temp ≠ some .other ∧ .notDirectory ∉ d.directories ∧ .present ∈ d.directories

end Disk

abbrev Io := M IoError Disk

def fileOp (f : Disk → Disk) : Io Unit := op .io f

/-- An operation, or a boundary between two, that changes none of the names. -/
def checkpoint : Io Unit := fileOp id

/-- The path is given from the inside out. The answer is the number of syncs. -/
def ensureDurableDirectories : List DirState → Nat → Io Nat
  | [], _ => fail (.invalid (invalid "vault directory has no parent"))
  | .present :: _, _ => pure 0
  | .notDirectory :: _, _ => fail (.invalid (invalid "vault directory is not a directory"))
  | .missing :: parents, depth => do
    let ancestorSyncs ← ensureDurableDirectories parents (depth + 1)
    checkpoint
    fileOp (Disk.mkdir depth)
    checkpoint
    checkpoint
    checkpoint
    checkpoint
    checkpoint
    return ancestorSyncs + 2

def writeAll : Bytes → Io Unit
  | [] => pure ()
  | b :: bytes => do
    fileOp (Disk.append [b])
    writeAll bytes

/-- The head counts as durable with the last of its directories. -/
def syncDirectoryAncestors : Nat → Io Unit
  | 0 => fileOp Disk.settle
  | n + 1 => do
    checkpoint
    syncDirectoryAncestors n

def replaceHead (bytes : Bytes) : Io Unit := do
  checkpoint
  fileOp Disk.create
  checkpoint
  writeAll bytes
  checkpoint
  fileOp Disk.syncTemp
  checkpoint
  checkpoint
  fileOp Disk.rename
  checkpoint
  checkpoint
  let disk ← read
  syncDirectoryAncestors (disk.directories.length - 2)
  checkpoint

section Publish

variable (json : SerdeJson) (hashBytes : Bytes → FileHash) (vaultId : String)

def publishCurrentHead (head : RootHead) : Io Unit :=
  match encode json hashBytes vaultId head with
  | .error error => fail (.refused error)
  | .ok bytes => do
    let disk ← read
    let _ ← ensureDurableDirectories disk.directories 0
    checkpoint
    let disk ← read
    if disk.temp = some .other then
      fail (.invalid (invalid "root temporary is not a regular file"))
    else replaceHead bytes

def readRootHead (d : Disk) : Except IoError (Option RootHead) :=
  match d.current with
  | none =>
    match d.temp with
    | some _ => .error (.invalid
        (invalid "missing root head has an orphan temporary; recovery required"))
    | none => .ok none
  | some .other => .error (.invalid (invalid "root head is not a regular file"))
  | some (.file f) =>
    if maxRootHeadBytes < f.bytes.length then
      .error (.invalid (invalid "invalid or oversized root head file"))
    else
      match decode json hashBytes vaultId f.bytes with
      | .error error => .error (.invalid error)
      | .ok head => .ok (some head)

end Publish

variable {d : Disk} {bytes : Bytes} {plans : Plan → Prop}

def published (bytes : Bytes) : Option Node := some (.file ⟨bytes, true⟩)

/-- Before the rename, nothing of the head has changed. -/
def Kept (d s : Disk) : Prop := s.current = d.current ∧ s.earlier = d.earlier

/-- After it, a power loss can bring back the old values. -/
def Moved (d : Disk) (bytes : Bytes) (s : Disk) : Prop :=
  s.current = published bytes ∧ s.earlier = d.current :: d.earlier

/-- In the end it cannot. -/
def Settled (bytes : Bytes) (s : Disk) : Prop := s.current = published bytes ∧ s.earlier = []

def Left (d : Disk) (bytes : Bytes) (s : Disk) : Prop :=
  Kept d s ∨ Moved d bytes s ∨ Settled bytes s

theorem Safe.checkpoint (hc : Closed plans) (hR : ∀ s, P s → R s) (hm : Safe plans P m Q R) :
    Safe plans P (checkpoint >>= fun _ => m) Q R :=
  Safe.bind (Safe.op hc (fun _ h => h) hR) fun _ => hm

theorem keeps_ensureDurableDirectories (hc : Closed plans)
    (hmkdir : ∀ s depth, P s → P (s.mkdir depth)) (path : List DirState) (depth : Nat) :
    Keeps plans P (ensureDurableDirectories path depth) := by
  induction path generalizing depth with
  | nil => exact Safe.fail fun _ h => h
  | cons dir parents ih =>
    cases dir with
    | present => exact Safe.pure fun _ h => h
    | notDirectory => exact Safe.fail fun _ h => h
    | missing =>
      have hskip {α : Type} {m : Io α} (h : Keeps plans P m) :
          Keeps plans P (checkpoint >>= fun _ => m) := Safe.checkpoint hc (fun _ h => h) h
      apply (ih (depth + 1)).bind
      intro syncs
      apply hskip
      apply Keeps.bind (Keeps.op hc fun s h => hmkdir s depth h)
      intro _
      exact hskip (hskip (hskip (hskip (hskip (Safe.pure fun _ h => h)))))

theorem safe_writeAll (hc : Closed plans) (written : Bytes) :
    Safe plans (fun s => Kept d s ∧ s.temp = some (.file ⟨written, false⟩)) (writeAll bytes)
      (fun _ s => Kept d s ∧ s.temp = some (.file ⟨written ++ bytes, false⟩)) (Kept d) := by
  induction bytes generalizing written with
  | nil =>
    rw [append_nil]
    exact Safe.pure fun _ h => h
  | cons b bytes ih =>
    have happend : Safe plans (fun s => Kept d s ∧ s.temp = some (.file ⟨written, false⟩))
        (fileOp (Disk.append [b]))
        (fun _ s => Kept d s ∧ s.temp = some (.file ⟨written ++ [b], false⟩)) (Kept d) := by
      refine Safe.op hc (fun s hs => ?_) fun s hs => hs.1
      rw [Disk.append, hs.2]
      exact ⟨hs.1, rfl⟩
    rw [append_cons]
    exact happend.bind fun _ => ih (written ++ [b])

theorem safe_syncDirectoryAncestors (hc : Closed plans) (n : Nat) :
    Safe plans (Moved d bytes) (syncDirectoryAncestors n) (fun _ => Settled bytes) (Left d bytes) := by
  induction n with
  | zero => exact Safe.op hc (fun s hs => ⟨hs.1, rfl⟩) fun s hs => .inr (.inl hs)
  | succ n ih => exact Safe.checkpoint hc (fun s hs => .inr (.inl hs)) ih

theorem safe_replaceHead (hc : Closed plans) :
    Safe plans (Kept d) (replaceHead bytes) (fun _ => Settled bytes) (Left d bytes) := by
  have hkept : ∀ s, Kept d s → Left d bytes s := fun s hs => .inl hs
  have hmoved : ∀ s, Moved d bytes s → Left d bytes s := fun s hs => .inr (.inl hs)
  apply Safe.checkpoint hc hkept
  have hcreate : Safe plans (Kept d) (fileOp Disk.create)
      (fun _ s => Kept d s ∧ s.temp = some (.file ⟨[], false⟩)) (Left d bytes) :=
    Safe.op hc (fun s hs => ⟨hs, rfl⟩) hkept
  apply hcreate.bind
  intro _
  apply Safe.checkpoint hc fun s hs => hkept s hs.1
  apply Safe.bind ((safe_writeAll hc []).weaken (fun _ h => h) (fun _ _ h => h) hkept)
  intro _
  apply Safe.checkpoint hc fun s hs => hkept s hs.1
  have hsync : Safe plans (fun s => Kept d s ∧ s.temp = some (.file ⟨bytes, false⟩))
      (fileOp Disk.syncTemp) (fun _ s => Kept d s ∧ s.temp = published bytes) (Left d bytes) := by
    refine Safe.op hc (fun s hs => ?_) fun s hs => hkept s hs.1
    rw [Disk.syncTemp, hs.2]
    exact ⟨hs.1, rfl⟩
  apply hsync.bind
  intro _
  apply Safe.checkpoint hc fun s hs => hkept s hs.1
  apply Safe.checkpoint hc fun s hs => hkept s hs.1
  have hrename : Safe plans (fun s => Kept d s ∧ s.temp = published bytes) (fileOp Disk.rename)
      (fun _ => Moved d bytes) (Left d bytes) := by
    refine Safe.op hc (fun s hs => ?_) fun s hs => hkept s hs.1
    exact ⟨hs.2, by rw [Disk.rename, hs.1.1, hs.1.2]⟩
  apply hrename.bind
  intro _
  apply Safe.checkpoint hc hmoved
  apply Safe.checkpoint hc hmoved
  apply Safe.read.bind
  intro disk
  apply Safe.bind ((safe_syncDirectoryAncestors hc _).pre fun s hs => hs.2)
  intro _
  exact Safe.op hc (fun _ hs => hs) fun s hs => .inr (.inr hs)

variable {json : SerdeJson} {hashBytes : Bytes → FileHash} {vaultId : String} {head old : RootHead}

theorem safe_publishCurrentHead (hc : Closed plans) (h : encode json hashBytes vaultId head = .ok bytes) :
    Safe plans (Kept d) (publishCurrentHead json hashBytes vaultId head) (fun _ => Settled bytes)
      (Left d bytes) := by
  have hkept : ∀ s, Kept d s → Left d bytes s := fun s hs => .inl hs
  rw [publishCurrentHead, h]
  apply Safe.read.bind
  intro disk
  apply Safe.bind ((keeps_ensureDurableDirectories hc (fun _ _ h => h) _ _).weaken
    (fun s hs => hs.2) (fun _ _ h => h) hkept)
  intro _
  apply Safe.checkpoint hc hkept
  apply Safe.read.bind
  intro disk
  split
  · exact Safe.fail fun s hs => hkept s hs.2
  · exact (safe_replaceHead hc).pre fun s hs => hs.2

theorem publishCurrentHead_left (h : encode json hashBytes vaultId head = .ok bytes) (w : World Disk) :
    Left w.state bytes (publishCurrentHead json hashBytes vaultId head w).2.state ∧
      ((publishCurrentHead json hashBytes vaultId head w).1 = .ok () →
        Settled bytes (publishCurrentHead json hashBytes vaultId head w).2.state) := by
  obtain ⟨-, hend⟩ := safe_publishCurrentHead (d := w.state) closed_true h w trivial ⟨rfl, rfl⟩
  cases hout : (publishCurrentHead json hashBytes vaultId head w).1 with
  | ok _ =>
    rw [hout] at hend
    exact ⟨.inr (.inr hend), fun _ => hend⟩
  | error _ =>
    rw [hout] at hend
    exact ⟨hend, nofun⟩

section Ready

theorem Disk.Ready.mkdir (h : d.Ready) (depth : Nat) : (d.mkdir depth).Ready := by
  obtain ⟨htemp, hpath, hroot⟩ := h
  refine ⟨htemp, fun hmem => ?_, ?_⟩
  · rcases mem_or_eq_of_mem_set hmem with hmem | heq
    · exact hpath hmem
    · exact nomatch heq
  · rw [Disk.mkdir]
    obtain ⟨i, hi, heq⟩ := getElem_of_mem hroot
    refine mem_of_getElem? (i := i) ?_
    rw [getElem?_set]
    split
    · next hsame =>
      rw [if_pos (hsame ▸ hi)]
    · rw [getElem?_eq_getElem hi, heq]

/-- Operations that keep the disk ready do not fail, or fail with `R`. -/
def Runs (plans : Plan → Prop) (R : Disk → Prop) : Prop :=
  ∀ f : Disk → Disk, (∀ s, s.Ready → (f s).Ready) →
    Safe plans Disk.Ready (fileOp f) (fun _ => Disk.Ready) R

theorem runs_keeps (hc : Closed plans) : Runs plans Disk.Ready := fun _ hf => Keeps.op hc hf

theorem runs_none : Runs (· = .none) fun _ => False := fun _ hf => Safe.op_none hf

variable {R : Disk → Prop}

theorem Runs.skip (hr : Runs plans R) (h : Safe plans Disk.Ready m (fun _ => Disk.Ready) R) :
    Safe plans Disk.Ready (checkpoint >>= fun _ => m) (fun _ => Disk.Ready) R :=
  Safe.bind (hr id fun _ h => h) fun _ => h

theorem Runs.writeAll (hr : Runs plans R) (bytes : Bytes) :
    Safe plans Disk.Ready (writeAll bytes) (fun _ => Disk.Ready) R := by
  induction bytes with
  | nil => exact Safe.pure fun _ h => h
  | cons b bytes ih =>
    have happend : ∀ s : Disk, s.Ready → (s.append [b]).Ready := fun s hs => by
      rw [Disk.append]
      split
      · exact ⟨nofun, hs.2⟩
      · exact hs
    exact (hr _ happend).bind fun _ => ih

theorem Runs.syncDirectoryAncestors (hr : Runs plans R) (n : Nat) :
    Safe plans Disk.Ready (syncDirectoryAncestors n) (fun _ => Disk.Ready) R := by
  induction n with
  | zero => exact hr _ fun s hs => hs
  | succ n ih => exact hr.skip ih

theorem Runs.replaceHead (hr : Runs plans R) (bytes : Bytes) :
    Safe plans Disk.Ready (replaceHead bytes) (fun _ => Disk.Ready) R := by
  have hcreate : ∀ s : Disk, s.Ready → s.create.Ready := fun s hs => ⟨nofun, hs.2⟩
  have hrename : ∀ s : Disk, s.Ready → s.rename.Ready := fun s hs => ⟨nofun, hs.2⟩
  have hsync : ∀ s : Disk, s.Ready → s.syncTemp.Ready := fun s hs => by
    rw [Disk.syncTemp]
    split
    · exact ⟨nofun, hs.2⟩
    · exact hs
  apply hr.skip
  apply (hr _ hcreate).bind
  intro _
  apply hr.skip
  apply (hr.writeAll bytes).bind
  intro _
  apply hr.skip
  apply (hr _ hsync).bind
  intro _
  apply hr.skip
  apply hr.skip
  apply (hr _ hrename).bind
  intro _
  apply hr.skip
  apply hr.skip
  apply Safe.read.bind
  intro disk
  apply Safe.bind ((hr.syncDirectoryAncestors _).pre fun s hs => hs.2)
  intro _
  exact hr _ fun s hs => hs

theorem Runs.ensureDurableDirectories (hr : Runs plans R) (path : List DirState) (depth : Nat)
    (hpath : .notDirectory ∉ path) (hroot : .present ∈ path) :
    Safe plans Disk.Ready (ensureDurableDirectories path depth) (fun _ => Disk.Ready) R := by
  induction path generalizing depth with
  | nil => exact nomatch hroot
  | cons dir parents ih =>
    cases dir with
    | present => exact Safe.pure fun _ h => h
    | notDirectory => exact absurd mem_cons_self hpath
    | missing =>
      have hrest := (mem_cons.1 hroot).resolve_left nofun
      apply (ih (depth + 1) (fun hmem => hpath (mem_cons_of_mem _ hmem)) hrest).bind
      intro syncs
      apply hr.skip
      apply (hr _ fun s hs => hs.mkdir depth).bind
      intro _
      exact hr.skip (hr.skip (hr.skip (hr.skip (hr.skip (Safe.pure fun _ h => h)))))

theorem Runs.publishCurrentHead (hr : Runs plans R) (h : encode json hashBytes vaultId head = .ok bytes) :
    Safe plans Disk.Ready (publishCurrentHead json hashBytes vaultId head) (fun _ => Disk.Ready) R := by
  have hready (disk : Disk) : ∀ s, disk = s ∧ s.Ready → disk.Ready := fun s hs => hs.1 ▸ hs.2
  rw [HeadPublication.publishCurrentHead, h]
  apply Safe.read.bind
  intro disk
  apply Safe.assume (hready disk)
  intro hdisk
  apply Safe.bind ((hr.ensureDurableDirectories _ 0 hdisk.2.1 hdisk.2.2).weaken
    (fun s hs => hs.2) (fun _ _ h => h) fun _ h => h)
  intro _
  apply hr.skip
  apply Safe.read.bind
  intro disk
  apply Safe.assume (hready disk)
  intro hdisk
  rw [if_neg hdisk.1]
  exact (hr.replaceHead bytes).pre fun s hs => hs.2

end Ready

section Reading

variable {s t : Disk}

theorem readRootHead_congr (h : s.current = t.current) (hne : s.current ≠ none) :
    readRootHead json hashBytes vaultId s = readRootHead json hashBytes vaultId t := by
  rw [readRootHead, readRootHead, ← h]
  cases hcurrent : s.current with
  | none => exact absurd hcurrent hne
  | some node => cases node <;> rfl

theorem readRootHead_published (hencode : encode json hashBytes vaultId head = .ok bytes)
    (hjson : head.receipts.val ≠ [] → json.Canonical (payloadOf vaultId head))
    (h : s.current = published bytes) : readRootHead json hashBytes vaultId s = .ok (some head) := by
  rw [readRootHead, h]
  simp only [published]
  rw [if_neg (Nat.not_lt.2 (length_encode_le hencode)), decode_encode hencode hjson]

theorem current_of_read (h : readRootHead json hashBytes vaultId s = .ok (some head)) :
    ∃ f, s.current = some (.file f) := by
  rw [readRootHead] at h
  split at h
  · split at h <;> exact nomatch h
  · exact nomatch h
  · next f hcurrent => exact ⟨f, hcurrent⟩

theorem readRootHead_none (h : s.current = none) : readRootHead json hashBytes vaultId s =
    if s.temp.isSome then .error (.invalid
      (invalid "missing root head has an orphan temporary; recovery required"))
    else .ok none := by
  rw [readRootHead, h]
  cases s.temp <;> rfl

theorem Disk.Survives.eq_of_synced {after} (h : Disk.Survives value after)
    (hsynced : ∀ f, value = some (.file f) → f.synced = true) : after = value := by
  match value, h with
  | none, h => exact h
  | some .other, h => exact h
  | some (.file f), ⟨bytes, hafter, hbytes⟩ =>
    have hf := hsynced f rfl
    rw [hafter, hbytes hf, ← hf]

theorem Disk.PowerLoss.durable (h : Disk.PowerLoss s t) : t.Durable := by
  refine ⟨h.earlier, fun f hf => ?_⟩
  obtain ⟨value, -, hvalue⟩ := h.current
  match value, hvalue with
  | none, hvalue => exact nomatch hf.symm.trans hvalue
  | some .other, hvalue => exact nomatch hf.symm.trans hvalue
  | some (.file _), ⟨bytes, hafter, _⟩ =>
    rw [hf] at hafter
    cases hafter
    rfl

theorem Disk.PowerLoss.current_of_durable (h : Disk.PowerLoss s t) (hs : s.Durable) :
    t.current = s.current := by
  obtain ⟨value, hmem, hvalue⟩ := h.current
  rw [hs.1, mem_singleton] at hmem
  subst hmem
  exact hvalue.eq_of_synced hs.2

theorem Disk.PowerLoss.ready (h : Disk.PowerLoss s t) (hs : s.Ready) : t.Ready :=
  ⟨fun htemp => hs.1 (h.temp htemp), fun hmem => hs.2.1 (h.directories hmem), h.root hs.2.2⟩

theorem synced_published (h : published bytes = some (.file f)) : f.synced = true := by
  cases h
  rfl

/-- A power loss finds the new head, or what it could have found before the publication. -/
theorem Left.powerLoss (hs : Left d bytes s) (h : Disk.PowerLoss s t) :
    t.current = published bytes ∨ ∃ lost, d.PowerLoss lost ∧ lost.current = t.current := by
  obtain ⟨value, hmem, hvalue⟩ := h.current
  have hnew : value = published bytes → t.current = published bytes := fun heq => by
    subst heq
    exact hvalue.eq_of_synced fun f hf => synced_published hf
  have hold : value ∈ d.current :: d.earlier → ∃ lost, d.PowerLoss lost ∧ lost.current = t.current :=
    fun hmem => ⟨⟨t.current, none, [], d.directories⟩, ⟨⟨value, hmem, hvalue⟩, nofun, rfl, id, id⟩, rfl⟩
  rcases hs with ⟨hcurrent, hearlier⟩ | ⟨hcurrent, hearlier⟩ | ⟨hcurrent, hearlier⟩
  · rw [hcurrent, hearlier] at hmem
    exact .inr (hold hmem)
  · rw [hcurrent, hearlier, mem_cons] at hmem
    exact hmem.imp hnew hold
  · rw [hcurrent, hearlier, mem_singleton] at hmem
    exact .inl (hnew hmem)

theorem Left.current (hs : Left d bytes s) : s.current = d.current ∨ s.current = published bytes := by
  rcases hs with hs | hs | hs
  · exact .inl hs.1
  · exact .inr hs.1
  · exact .inr hs.1

theorem Settled.durable (hs : Settled bytes s) : s.Durable :=
  ⟨hs.2, fun _ hf => synced_published (hs.1.symm.trans hf)⟩

end Reading

/-- The disk as it is found after a publication: at once, or after a power loss. -/
def Found (s found : Disk) : Prop := found = s ∨ s.PowerLoss found

/-- One publication from any disk, with a fault or a crash at any operation. A refused head changes
nothing. What is found afterwards is the old head or the new one; where there was none, it can also
still be nothing, which is an error if a temporary is left. A publication that returned cannot be
lost, and a power loss brings back nothing that it could not have brought back before. Where only regular files and directories are in its way, so they are afterwards, and a
publication without a fault succeeds there. -/
theorem publish_atomic (json : SerdeJson) (hashBytes : Bytes → FileHash) (vaultId : String)
    (head : RootHead) (hjson : head.receipts.val ≠ [] → json.Canonical (payloadOf vaultId head))
    (d : Disk) (plan : Plan) :
    let read := readRootHead json hashBytes vaultId
    let out := publishCurrentHead json hashBytes vaultId head ⟨d, plan⟩
    (∀ error, encode json hashBytes vaultId head = .error error →
      out.1 = .error (.refused error) ∧ out.2.state = d) ∧
    (∀ old found, read d = .ok (some old) →
      found = out.2.state ∨ d.Durable ∧ out.2.state.PowerLoss found →
      read found = .ok (some old) ∨ read found = .ok (some head)) ∧
    (∀ found, d.current = none → found = out.2.state ∨ d.Durable ∧ out.2.state.PowerLoss found →
      read found = .ok (some head) ∨ read found = if found.temp.isSome then .error (.invalid
        (invalid "missing root head has an orphan temporary; recovery required")) else .ok none) ∧
    (∀ found, out.2.state.PowerLoss found → found.Durable ∧ (read found = .ok (some head) ∨
      ∃ lost, d.PowerLoss lost ∧ lost.current = found.current)) ∧
    (out.1 = .ok () → ∀ found, Found out.2.state found → read found = .ok (some head)) ∧
    (d.Ready → (∀ found, Found out.2.state found → found.Ready) ∧
      (plan = .none → (∃ bytes, encode json hashBytes vaultId head = .ok bytes) → out.1 = .ok ())) := by
  intro read out
  have hcases : (∃ error, encode json hashBytes vaultId head = .error error ∧
      out = (.error (.refused error), ⟨d, plan⟩)) ∨
      ∃ bytes, encode json hashBytes vaultId head = .ok bytes ∧ Left d bytes out.2.state ∧
        (out.1 = .ok () → Settled bytes out.2.state) := by
    cases hencode : encode json hashBytes vaultId head with
    | error error =>
      refine .inl ⟨error, rfl, ?_⟩
      change publishCurrentHead json hashBytes vaultId head ⟨d, plan⟩ = _
      rw [publishCurrentHead, hencode]
      rfl
    | ok bytes => exact .inr ⟨bytes, rfl, publishCurrentHead_left hencode ⟨d, plan⟩⟩
  have hlost : ∀ found, out.2.state.PowerLoss found → read found = .ok (some head) ∨
      ∃ lost, d.PowerLoss lost ∧ lost.current = found.current := by
    intro found hloss
    rcases hcases with ⟨error, -, hout⟩ | ⟨bytes, hencode, hleft, -⟩
    · rw [hout] at hloss
      exact .inr ⟨found, hloss, rfl⟩
    · exact (hleft.powerLoss hloss).imp_left (readRootHead_published hencode hjson)
  have hcurrent : ∀ found, found = out.2.state ∨ d.Durable ∧ out.2.state.PowerLoss found →
      found.current = d.current ∨ read found = .ok (some head) := by
    rintro found (rfl | ⟨hd, hloss⟩)
    · rcases hcases with ⟨error, -, hout⟩ | ⟨bytes, hencode, hleft, -⟩
      · rw [hout]
        exact .inl rfl
      · exact hleft.current.imp_right (readRootHead_published hencode hjson)
    · rcases hlost found hloss with hnew | ⟨lost, hloss, heq⟩
      · exact .inr hnew
      · exact .inl (heq.symm.trans (hloss.current_of_durable hd))
  refine ⟨fun error herror => ?_, fun old found hold hfound => ?_, fun found hnone hfound => ?_,
    fun found hloss => ⟨hloss.durable, hlost found hloss⟩, fun hok found hfound => ?_,
    fun hready => ⟨fun found hfound => ?_, ?_⟩⟩
  · rcases hcases with ⟨error', herror', hout⟩ | ⟨bytes, hencode, -⟩
    · obtain rfl := Except.error.inj (herror.symm.trans herror')
      rw [hout]
      exact ⟨rfl, rfl⟩
    · exact nomatch herror.symm.trans hencode
  · refine (hcurrent found hfound).imp_left fun heq => ?_
    obtain ⟨f, hf⟩ := current_of_read hold
    have hne : found.current ≠ none := by simp [heq, hf]
    exact (readRootHead_congr heq hne).trans hold
  · rcases hcurrent found hfound with heq | hnew
    · exact .inr (readRootHead_none (heq.trans hnone))
    · exact .inl hnew
  · rcases hcases with ⟨error, -, hout⟩ | ⟨bytes, hencode, -, hsettled⟩
    · exact nomatch (congrArg Prod.fst hout).symm.trans hok
    · apply readRootHead_published hencode hjson
      rcases hfound with rfl | hloss
      · exact (hsettled hok).1
      · exact (hloss.current_of_durable (hsettled hok).durable).trans (hsettled hok).1
  · have hkeeps : out.2.state.Ready := by
      rcases hcases with ⟨error, -, hout⟩ | ⟨bytes, hencode, -⟩
      · rw [hout]
        exact hready
      · exact Keeps.end_state ((runs_keeps closed_true).publishCurrentHead hencode) trivial hready
    rcases hfound with rfl | hloss
    · exact hkeeps
    · exact hloss.ready hkeeps
  · rintro rfl ⟨bytes, hencode⟩
    obtain ⟨-, hend⟩ := runs_none.publishCurrentHead hencode ⟨d, .none⟩ rfl hready
    cases hout : (publishCurrentHead json hashBytes vaultId head ⟨d, .none⟩).1 with
    | ok _ => rfl
    | error _ =>
      rw [hout] at hend
      exact hend.elim

def emptyDisk : Disk := ⟨none, none, [], [.missing, .missing, .present]⟩

theorem encode_bareHead (json : SerdeJson) : ∃ bytes,
    encode json (fun _ => RootHead.zeroHash) "v" bareHead = .ok bytes := by
  obtain ⟨hash, -, hencode⟩ := @encode_bare json (fun _ => RootHead.zeroHash) "v" bareHead rfl rfl
  exact ⟨_, hencode⟩

theorem publish_atomic_first :
    let json := canned "v" bareHead bareText
    let out := publishCurrentHead json (fun _ => RootHead.zeroHash) "v" bareHead ⟨emptyDisk, .none⟩
    out.1 = .ok () ∧ readRootHead json (fun _ => RootHead.zeroHash) "v" out.2.state = .ok (some bareHead) := by
  intro json
  have hready : emptyDisk.Ready := by
    refine ⟨nofun, ?_, ?_⟩ <;> decide
  have hencode := encode_bareHead json
  have hatomic := publish_atomic json (fun _ => RootHead.zeroHash) "v" bareHead (fun hne => absurd rfl hne)
    emptyDisk .none
  generalize publishCurrentHead json (fun _ => RootHead.zeroHash) "v" bareHead ⟨emptyDisk, .none⟩ = out at hatomic ⊢
  obtain ⟨-, -, -, -, hfound, hsucceeds⟩ := hatomic
  have hok := (hsucceeds hready).2 rfl hencode
  exact ⟨hok, hfound hok _ (.inl rfl)⟩

/-- An error before the temporary of a first head is created leaves an empty vault. -/
theorem first_head_reads_empty :
    let json := canned "v" bareHead bareText
    let out := publishCurrentHead json (fun _ => RootHead.zeroHash) "v" bareHead ⟨emptyDisk, .error 0⟩
    out.1 = .error .io ∧ readRootHead json (fun _ => RootHead.zeroHash) "v" out.2.state = .ok none := by
  intro json out
  obtain ⟨bytes, hencode⟩ := encode_bareHead json
  have hout : out = (.error .io, ⟨emptyDisk, .none⟩) := by
    change publishCurrentHead json (fun _ => RootHead.zeroHash) "v" bareHead ⟨emptyDisk, .error 0⟩ = _
    rw [publishCurrentHead, hencode]
    rfl
  rw [hout]
  exact ⟨rfl, rfl⟩

end Obsetync.HeadPublication

import Obsetync.Assoc
import Obsetync.Entry
import Obsetync.Hex

namespace Obsetync.ChunkStore
open List hiding map

def u64Max : Nat := 2 ^ 64 - 1

def checkedAdd (a b : Nat) : Option Nat := if a + b ≤ u64Max then some (a + b) else none

def checkedSub (a b : Nat) : Option Nat := if b ≤ a then some (a - b) else none

/-- A `Vec<u8>`: its bytes lie in the memory that it owns. -/
structure Buffer where
  bytes : Bytes
  capacity : Nat
  fits : bytes.length ≤ capacity

structure BufferMemory where
  payloadBytes : Nat
  bufferCapacityBytes : Nat
  countersValid : Bool
  deriving DecidableEq

namespace BufferMemory

def new : BufferMemory := ⟨0, 0, true⟩

def addCount (value amount : Nat) : Nat × Bool :=
  match checkedAdd value amount with
  | some next => (next, true)
  | none => (u64Max, false)

def subtractCount (value amount : Nat) : Nat × Bool :=
  match checkedSub value amount with
  | some next => (next, true)
  | none => (0, false)

def add (m : BufferMemory) (length capacity : Nat) : BufferMemory :=
  let payload := addCount m.payloadBytes length
  let buffers := addCount m.bufferCapacityBytes capacity
  ⟨payload.1, buffers.1, m.countersValid && payload.2 && buffers.2⟩

def remove (m : BufferMemory) (chunk : Buffer) : BufferMemory :=
  let payload := subtractCount m.payloadBytes chunk.bytes.length
  let buffers := subtractCount m.bufferCapacityBytes chunk.capacity
  ⟨payload.1, buffers.1, m.countersValid && payload.2 && buffers.2⟩

end BufferMemory

structure StoredChunk where
  buffer : Buffer
  birthGeneration : Nat

abbrev ChunkMap := {map : List (FileHash × StoredChunk) // (map.map Prod.fst).Nodup}

structure MemoryChunkState where
  map : ChunkMap
  memory : BufferMemory
  insertionGeneration : Nat
  activeBaseline : Option Nat

abbrev Staged := {staged : List (FileHash × Buffer) // (staged.map Prod.fst).Nodup}

inductive ChunkError
  | deserialize (message : String)
  | notFound (hash : String)
  deriving DecidableEq

namespace MemoryChunkState

def new : MemoryChunkState := ⟨⟨[], .nil⟩, .new, 0, none⟩

def find (s : MemoryChunkState) (hash : FileHash) : Option StoredChunk := Assoc.find s.map.val hash

def resident (s : MemoryChunkState) (hash : FileHash) : Bool := (s.find hash).isSome

def len (s : MemoryChunkState) : Nat := s.map.val.length

def put (s : MemoryChunkState) (hash : FileHash) (chunk : StoredChunk) : ChunkMap :=
  ⟨Assoc.set s.map.val hash chunk, Assoc.nodup_set s.map.property⟩

def candidateBaselinePreflight (s : MemoryChunkState) : Except ChunkError Nat :=
  if s.activeBaseline.isSome then .error (.deserialize "candidate baseline already pinned")
  else
    match checkedAdd s.insertionGeneration 1 with
    | none => .error (.deserialize "candidate baseline generation exhausted")
    | some _ => .ok s.insertionGeneration

def openCandidateBaseline (s : MemoryChunkState) (expected : Nat) :
    Except ChunkError Unit × MemoryChunkState :=
  if s.activeBaseline.isSome || s.insertionGeneration ≠ expected then
    (.error (.deserialize "candidate baseline generation changed"), s)
  else
    match checkedAdd expected 1 with
    | none => (.error (.deserialize "candidate baseline generation exhausted"), s)
    | some next => (.ok (), {s with activeBaseline := some expected, insertionGeneration := next})

def closeCandidateBaseline (s : MemoryChunkState) (expected : Nat) :
    Except ChunkError Unit × MemoryChunkState :=
  if s.activeBaseline ≠ some expected then
    (.error (.deserialize "candidate baseline pin mismatch"), s)
  else (.ok (), {s with activeBaseline := none})

def isFreshSince (s : MemoryChunkState) (hash : FileHash) (baseline : Nat) : Except ChunkError Bool :=
  if s.activeBaseline ≠ some baseline then
    .error (.deserialize "candidate baseline is not pinned")
  else
    match s.find hash with
    | some chunk => .ok (baseline < chunk.birthGeneration)
    | none => .error (.notFound (hashToHex hash))

def insertChunk (s : MemoryChunkState) (hash : FileHash) (buffer : Buffer) : MemoryChunkState :=
  let birth := (s.find hash).elim s.insertionGeneration StoredChunk.birthGeneration
  let memory := (s.find hash).elim s.memory fun previous => s.memory.remove previous.buffer
  {s with
    map := s.put hash ⟨buffer, birth⟩
    memory := memory.add buffer.bytes.length buffer.capacity}

/-- One turn of the last loop of a verified promotion: only a vacant entry is filled. -/
def fillVacant (s : MemoryChunkState) (entry : FileHash × Buffer) : MemoryChunkState :=
  if s.resident entry.1 then s
  else
    {s with
      map := s.put entry.1 ⟨entry.2, s.insertionGeneration⟩
      memory := s.memory.add entry.2.bytes.length entry.2.capacity}

section Promotion

variable (hashBytes : Bytes → FileHash)

def misaddressed (staged : Staged) : Option (FileHash × Buffer) :=
  staged.val.find? fun entry => hashBytes entry.2.bytes ≠ entry.1

/-- `reserved` is the outcome of the reservation of memory. -/
def promoteVerifiedChunks (s : MemoryChunkState) (staged : Staged) (reserved : Bool) :
    Except ChunkError Unit × MemoryChunkState :=
  match misaddressed hashBytes staged with
  | some entry => (.error (.deserialize
      ("refusing staged index bytes that do not match " ++ hashToHex entry.1)), s)
  | none =>
    match staged.val.find? fun entry =>
        (s.find entry.1).any fun existing => existing.buffer.bytes ≠ entry.2.bytes with
    | some entry => (.error (.deserialize
        ("resident index object " ++ hashToHex entry.1 ++ " has conflicting bytes")), s)
    | none =>
      if !reserved then (.error (.deserialize "could not reserve staged index promotion"), s)
      else (.ok (), staged.val.foldl fillVacant s)

def prepareCandidateChunkPromotion (s : MemoryChunkState) (staged : Staged) (reserved : Bool) :
    Except ChunkError Unit × MemoryChunkState :=
  match misaddressed hashBytes staged with
  | some entry => (.error (.deserialize
      ("refusing staged candidate bytes that do not match " ++ hashToHex entry.1)), s)
  | none =>
    match staged.val.find? fun entry => s.resident entry.1 with
    | some entry => (.error (.deserialize
        ("resident candidate object " ++ hashToHex entry.1 ++ " appeared after staging")), s)
    | none =>
      if !reserved then (.error (.deserialize "could not reserve candidate chunk promotion"), s)
      else (.ok (), s)

end Promotion

def promotePreparedCandidateChunks (s : MemoryChunkState) (staged : Staged) : MemoryChunkState :=
  staged.val.foldl (fun s entry => s.insertChunk entry.1 entry.2) s

def retained (s : MemoryChunkState) (reachable : FileHash → Bool) : ChunkMap :=
  ⟨s.map.val.filter fun entry => reachable entry.1,
    s.map.property.sublist (List.filter_sublist.map Prod.fst)⟩

def dropped (s : MemoryChunkState) (reachable : FileHash → Bool) : List (FileHash × StoredChunk) :=
  s.map.val.filter fun entry => !reachable entry.1

def sweep (s : MemoryChunkState) (reachable : FileHash → Bool) : MemoryChunkState :=
  {s with
    map := s.retained reachable
    memory := (s.dropped reachable).foldl (fun memory entry => memory.remove entry.2.buffer) s.memory}

/-- `none` is the failed assertion; it comes before the first change. -/
def retainChunks (s : MemoryChunkState) (reachable : FileHash → Bool) :
    Option (Nat × Nat × Nat) × MemoryChunkState :=
  if s.activeBaseline.isSome then (none, s)
  else
    let bytesRemoved := (s.dropped reachable).foldl
      (fun sum entry => min u64Max (sum + entry.2.buffer.bytes.length)) 0
    (some (s.len, (s.sweep reachable).len, bytesRemoved), s.sweep reachable)

structure Summary where
  chunks : Nat
  payloadBytes : Nat
  bufferCapacityBytes : Nat
  countersValid : Bool

def memorySummary (s : MemoryChunkState) : Summary :=
  ⟨s.len, s.memory.payloadBytes, s.memory.bufferCapacityBytes, s.memory.countersValid⟩

def delete (s : MemoryChunkState) (hash : FileHash) : Except ChunkError Unit × MemoryChunkState :=
  if s.activeBaseline.isSome then
    (.error (.deserialize "cannot delete with a pinned candidate baseline"), s)
  else
    match s.find hash with
    | none => (.ok (), s)
    | some chunk => (.ok (), {s with
        map := ⟨Assoc.erase s.map.val hash, Assoc.nodup_erase s.map.property⟩
        memory := s.memory.remove chunk.buffer})

end MemoryChunkState

inductive Call
  | insert (hash : FileHash) (buffer : Buffer)
  | delete (hash : FileHash)
  | promoteVerified (staged : Staged) (reserved : Bool)
  | prepare (staged : Staged) (reserved : Bool)
  | promotePrepared (staged : Staged)
  | retain (reachable : FileHash → Bool)
  | openBaseline (expected : Nat)
  | closeBaseline (expected : Nat)

section Runs

variable (hashBytes : Bytes → FileHash)

def step (s : MemoryChunkState) : Call → MemoryChunkState
  | .insert hash buffer => s.insertChunk hash buffer
  | .delete hash => (s.delete hash).2
  | .promoteVerified staged reserved => (s.promoteVerifiedChunks hashBytes staged reserved).2
  | .prepare staged reserved => (s.prepareCandidateChunkPromotion hashBytes staged reserved).2
  | .promotePrepared staged => s.promotePreparedCandidateChunks staged
  | .retain reachable => (s.retainChunks reachable).2
  | .openBaseline expected => (s.openCandidateBaseline expected).2
  | .closeBaseline expected => (s.closeCandidateBaseline expected).2

def run (s : MemoryChunkState) (calls : List Call) : MemoryChunkState :=
  calls.foldl (step hashBytes) s

end Runs

namespace MemoryChunkState

def total (f : Buffer → Nat) (s : MemoryChunkState) : Nat := (s.map.val.map (f ·.2.buffer)).sum

def others (f : Buffer → Nat) (s : MemoryChunkState) (hash : FileHash) : Nat :=
  ((Assoc.erase s.map.val hash).map (f ·.2.buffer)).sum

def payload : MemoryChunkState → Nat := total fun b => b.bytes.length

def capacity : MemoryChunkState → Nat := total Buffer.capacity

def Sound (s : MemoryChunkState) : Prop := s.memory = ⟨s.payload, s.capacity, true⟩

def Dated (s : MemoryChunkState) : Prop :=
  ∀ hash chunk, s.find hash = some chunk → chunk.birthGeneration ≤ s.insertionGeneration

end MemoryChunkState

open MemoryChunkState

variable {s : MemoryChunkState} {hash key : FileHash} {buffer : Buffer}

theorem payload_le_capacity : s.payload ≤ s.capacity :=
  sum_le_sum fun entry _ => entry.2.buffer.fits

theorem add_exact (hp : p + buffer.bytes.length ≤ u64Max) (hc : c + buffer.capacity ≤ u64Max) :
    BufferMemory.add ⟨p, c, true⟩ buffer.bytes.length buffer.capacity =
      ⟨p + buffer.bytes.length, c + buffer.capacity, true⟩ := by
  simp [BufferMemory.add, BufferMemory.addCount, checkedAdd, hp, hc]

theorem remove_exact :
    BufferMemory.remove ⟨p + buffer.bytes.length, c + buffer.capacity, true⟩ buffer = ⟨p, c, true⟩ := by
  simp [BufferMemory.remove, BufferMemory.subtractCount, checkedSub]

theorem countersValid_of_add {m : BufferMemory} {length capacity : Nat}
    (h : (m.add length capacity).countersValid = true) :
    m.countersValid = true ∧ m.payloadBytes + length ≤ u64Max ∧
      m.bufferCapacityBytes + capacity ≤ u64Max := by
  simp only [BufferMemory.add, BufferMemory.addCount, checkedAdd, Bool.and_eq_true] at h
  obtain ⟨⟨hvalid, hp⟩, hc⟩ := h
  refine ⟨hvalid, ?_, ?_⟩
  · by_contra hover
    rw [if_neg hover] at hp
    exact absurd hp Bool.false_ne_true
  · by_contra hover
    rw [if_neg hover] at hc
    exact absurd hc Bool.false_ne_true

theorem countersValid_of_remove {m : BufferMemory} (h : (m.remove buffer).countersValid = true) :
    m.countersValid = true := by
  simp only [BufferMemory.remove, Bool.and_eq_true] at h
  exact h.1.1

theorem find_insertChunk : (s.insertChunk hash buffer).find key =
    if key = hash then
      some ⟨buffer, (s.find hash).elim s.insertionGeneration StoredChunk.birthGeneration⟩
    else s.find key :=
  Assoc.find_set

theorem resident_insertChunk : (s.insertChunk hash buffer).resident key =
    (decide (key = hash) || s.resident key) := by
  rw [resident, find_insertChunk]
  by_cases h : key = hash
  · rw [if_pos h, decide_eq_true h]
    rfl
  · rw [if_neg h, decide_eq_false h]
    rfl

theorem total_eq (f : Buffer → Nat) (s : MemoryChunkState) (hash : FileHash) :
    s.total f = (s.find hash).elim 0 (fun chunk => f chunk.buffer) + s.others f hash :=
  Assoc.sum_erase s.map.property (fun chunk => f chunk.buffer) hash

theorem total_insertChunk : (s.insertChunk hash buffer).total f = s.others f hash + f buffer :=
  Nat.add_comm _ _

theorem memory_without (h : s.Sound) (hash : FileHash) :
    ((s.find hash).elim s.memory fun previous => s.memory.remove previous.buffer) =
      ⟨s.others (fun b => b.bytes.length) hash, s.others Buffer.capacity hash, true⟩ := by
  have hpayload := total_eq (fun b => b.bytes.length) s hash
  have hcapacity := total_eq Buffer.capacity s hash
  rw [Sound, payload, capacity, hpayload, hcapacity] at h
  cases hfind : s.find hash with
  | none =>
    rw [hfind] at h
    rw [Option.elim_none, h, Option.elim_none, Option.elim_none, Nat.zero_add, Nat.zero_add]
  | some previous =>
    rw [hfind] at h
    rw [Option.elim_some, h, Option.elim_some, Option.elim_some,
      Nat.add_comm previous.buffer.bytes.length, Nat.add_comm previous.buffer.capacity]
    exact remove_exact

theorem insertChunk_sound (h : s.Sound) (hfits : (s.insertChunk hash buffer).capacity ≤ u64Max) :
    (s.insertChunk hash buffer).Sound := by
  have hpayload := payload_le_capacity.trans hfits
  rw [payload, total_insertChunk] at hpayload
  rw [capacity, total_insertChunk] at hfits
  rw [Sound, payload, capacity, total_insertChunk, total_insertChunk, ← add_exact hpayload hfits,
    ← memory_without h hash]
  rfl

def Exact (s : MemoryChunkState) : Prop := s.memory.countersValid = true → s.Sound

theorem insertChunk_exact (h : Exact s) : Exact (s.insertChunk hash buffer) := by
  intro hvalid
  have hadd := countersValid_of_add (m := (s.find hash).elim s.memory
    fun previous => s.memory.remove previous.buffer) hvalid
  have hbefore : s.memory.countersValid = true := by
    cases hfind : s.find hash with
    | none =>
      rw [hfind] at hadd
      exact hadd.1
    | some previous =>
      rw [hfind] at hadd
      exact countersValid_of_remove hadd.1
  rw [memory_without (h hbefore)] at hadd
  apply insertChunk_sound (h hbefore)
  rw [capacity, total_insertChunk]
  exact hadd.2.2

theorem total_sweep (s : MemoryChunkState) (reachable : FileHash → Bool) :
    s.total f = (s.sweep reachable).total f + ((s.dropped reachable).map (f ·.2.buffer)).sum := by
  have hperm := (filter_append_perm (fun entry => reachable entry.1) s.map.val).map (f ·.2.buffer)
  rw [total, ← hperm.sum_eq, map_append, sum_append]
  rfl

theorem removeAll_exact (entries : List (FileHash × StoredChunk)) (p c : Nat) :
    entries.foldl (fun memory entry => BufferMemory.remove memory entry.2.buffer)
      ⟨p + (entries.map (·.2.buffer.bytes.length)).sum, c + (entries.map (·.2.buffer.capacity)).sum, true⟩ =
      ⟨p, c, true⟩ := by
  induction entries with
  | nil => rfl
  | cons entry entries ih =>
    rw [foldl_cons, map_cons, map_cons, sum_cons, sum_cons,
      Nat.add_comm entry.2.buffer.bytes.length, Nat.add_comm entry.2.buffer.capacity,
      ← Nat.add_assoc, ← Nat.add_assoc, remove_exact]
    exact ih

theorem countersValid_of_removeAll (entries : List (FileHash × StoredChunk))
    (h : (entries.foldl (fun memory entry => BufferMemory.remove memory entry.2.buffer) m).countersValid =
      true) : m.countersValid = true := by
  induction entries generalizing m with
  | nil => exact h
  | cons entry entries ih => exact countersValid_of_remove (ih h)

theorem sweep_sound (h : s.Sound) (reachable : FileHash → Bool) : (s.sweep reachable).Sound := by
  rw [Sound, payload, capacity, total_sweep s reachable, total_sweep s reachable] at h
  have hmemory : (s.sweep reachable).memory = (s.dropped reachable).foldl
      (fun memory entry => memory.remove entry.2.buffer) s.memory := rfl
  rw [Sound, hmemory, h]
  exact removeAll_exact _ _ _

theorem sweep_exact (h : Exact s) (reachable : FileHash → Bool) : Exact (s.sweep reachable) :=
  fun hvalid => sweep_sound (h (countersValid_of_removeAll _ hvalid)) reachable

theorem dropped_key : (s.dropped fun key => key ≠ hash) = (s.find hash).toList.map (hash, ·) := by
  cases hfind : s.find hash with
  | none =>
    apply filter_eq_nil_iff.2
    intro entry hentry heq
    have hkey : entry.1 = hash := by simpa using heq
    have hmem := (Assoc.mem_keys s.map.val hash).1 (hkey ▸ mem_map_of_mem hentry)
    rw [← find, hfind] at hmem
    exact absurd hmem Bool.false_ne_true
  | some chunk =>
    have hperm := (Assoc.perm_of_find s.map.property hfind).filter fun entry => !decide (entry.1 ≠ hash)
    have hrest : (Assoc.erase s.map.val hash).filter (fun entry => !decide (entry.1 ≠ hash)) = [] := by
      rw [Assoc.erase, filter_filter, filter_eq_nil_iff]
      simp
    rw [filter_cons_of_pos (by simp), hrest] at hperm
    exact perm_singleton.1 hperm

theorem delete_eq_sweep : (s.delete hash).2 =
    if s.activeBaseline.isSome then s else s.sweep fun key => key ≠ hash := by
  rw [delete]
  split
  next => rfl
  next =>
    have hmap : (s.retained fun key => key ≠ hash).val = Assoc.erase s.map.val hash := rfl
    rw [sweep, dropped_key]
    cases hfind : s.find hash with
    | none =>
      have hsame : (s.retained fun key => key ≠ hash) = s.map :=
        Subtype.ext (hmap.trans (Assoc.erase_of_find_none hfind))
      rw [hsame]
      rfl
    | some chunk => rfl

theorem fillVacant_eq :
    s.fillVacant entry = if s.resident entry.1 then s else s.insertChunk entry.1 entry.2 := by
  rw [fillVacant]
  split
  next => rfl
  next hvacant =>
    have hnone : s.find entry.1 = none := Option.not_isSome_iff_eq_none.1 hvacant
    rw [insertChunk, hnone]
    rfl

/-- What a call can do to the store. -/
inductive Change (s : MemoryChunkState) : MemoryChunkState → Prop
  | same : Change s s
  | insert (hash : FileHash) (buffer : Buffer) : Change s (s.insertChunk hash buffer)
  | sweep (reachable : FileHash → Bool) (h : s.activeBaseline = none) : Change s (s.sweep reachable)
  | opened (h : s.activeBaseline = none) :
    Change s {s with
      activeBaseline := some s.insertionGeneration, insertionGeneration := s.insertionGeneration + 1}
  | closed : Change s {s with activeBaseline := none}

theorem promoteVerifiedChunks_eq (hashBytes : Bytes → FileHash) (staged : Staged) (reserved : Bool) :
    (∃ error, s.promoteVerifiedChunks hashBytes staged reserved = (.error error, s)) ∨
      s.promoteVerifiedChunks hashBytes staged reserved = (.ok (), staged.val.foldl fillVacant s) := by
  rw [promoteVerifiedChunks]
  split
  next => exact .inl ⟨_, rfl⟩
  next =>
    split
    next => exact .inl ⟨_, rfl⟩
    next =>
      split
      next => exact .inl ⟨_, rfl⟩
      next => exact .inr rfl

theorem prepareCandidateChunkPromotion_state (hashBytes : Bytes → FileHash) (staged : Staged)
    (reserved : Bool) : (s.prepareCandidateChunkPromotion hashBytes staged reserved).2 = s := by
  rw [prepareCandidateChunkPromotion]
  split
  next => rfl
  next =>
    split
    next => rfl
    next =>
      split
      next => rfl
      next => rfl

theorem openCandidateBaseline_cases (expected : Nat) :
    (∃ error, s.openCandidateBaseline expected = (.error error, s)) ∨
      s.activeBaseline = none ∧ s.insertionGeneration = expected ∧
        s.openCandidateBaseline expected = (.ok (), {s with
          activeBaseline := some s.insertionGeneration, insertionGeneration := s.insertionGeneration + 1}) := by
  rw [openCandidateBaseline]
  split
  next => exact .inl ⟨_, rfl⟩
  next hfree =>
    simp only [Bool.or_eq_true, Option.isSome_iff_ne_none, ne_eq, decide_eq_true_eq, not_or, not_not] at hfree
    obtain ⟨hnone, rfl⟩ := hfree
    rw [checkedAdd]
    split
    next => exact .inl ⟨_, rfl⟩
    next next hnext =>
      obtain rfl := Option.some.inj (Option.ite_none_right_eq_some.1 hnext).2
      exact .inr ⟨hnone, rfl, rfl⟩

theorem step_preserves {P : MemoryChunkState → Prop} (hchange : ∀ s t, Change s t → P s → P t)
    (hashBytes : Bytes → FileHash) (call : Call) (h : P s) : P (step hashBytes s call) := by
  cases call with
  | insert hash buffer => exact hchange _ _ (.insert hash buffer) h
  | delete hash =>
    rw [step, delete_eq_sweep]
    split
    next => exact h
    next hfree => exact hchange _ _ (.sweep _ (Option.not_isSome_iff_eq_none.1 hfree)) h
  | promoteVerified staged reserved =>
    rw [step]
    rcases promoteVerifiedChunks_eq hashBytes staged reserved with ⟨error, heq⟩ | heq
    · rw [heq]
      exact h
    · rw [heq]
      refine List.foldlRecOn _ _ h fun t ht entry _ => ?_
      rw [fillVacant_eq]
      split
      next => exact ht
      next => exact hchange _ _ (.insert _ _) ht
  | prepare staged reserved =>
    rw [step, prepareCandidateChunkPromotion_state]
    exact h
  | promotePrepared staged =>
    exact List.foldlRecOn _ _ h fun t ht entry _ => hchange _ _ (.insert _ _) ht
  | retain reachable =>
    rw [step, retainChunks]
    split
    next => exact h
    next hfree => exact hchange _ _ (.sweep _ (Option.not_isSome_iff_eq_none.1 hfree)) h
  | openBaseline expected =>
    rw [step]
    rcases openCandidateBaseline_cases expected with ⟨error, heq⟩ | ⟨hnone, -, heq⟩
    · rw [heq]
      exact h
    · rw [heq]
      exact hchange _ _ (.opened hnone) h
  | closeBaseline expected =>
    rw [step, closeCandidateBaseline]
    split
    next => exact h
    next => exact hchange _ _ .closed h

theorem run_preserves {P : MemoryChunkState → Prop} (hchange : ∀ s t, Change s t → P s → P t)
    (hashBytes : Bytes → FileHash) (calls : List Call) (h : P s) : P (run hashBytes s calls) :=
  List.foldlRecOn _ _ h fun _ ht call _ => step_preserves hchange hashBytes call ht

theorem Change.exact (h : Change s t) (hs : Exact s) : Exact t := by
  cases h with
  | same => exact hs
  | insert hash buffer => exact insertChunk_exact hs
  | sweep reachable _ => exact sweep_exact hs reachable
  | opened _ => exact hs
  | closed => exact hs

theorem find_of_find_sweep (h : (s.sweep reachable).find hash = some chunk) :
    s.find hash = some chunk :=
  Assoc.find_of_mem s.map.property (mem_of_mem_filter (Assoc.mem_of_find h))

theorem Change.dated (h : Change s t) (hs : s.Dated) : t.Dated := by
  cases h with
  | same => exact hs
  | insert hash buffer =>
    intro key chunk hfind
    rw [find_insertChunk] at hfind
    split at hfind
    next =>
      obtain rfl := Option.some.inj hfind
      cases hold : s.find hash with
      | none => exact le_rfl
      | some previous => exact hs hash previous hold
    next => exact hs _ _ hfind
  | sweep reachable _ => exact fun key chunk hfind => hs key chunk (find_of_find_sweep hfind)
  | opened _ => exact fun key chunk hfind => (hs key chunk hfind).trans (Nat.le_succ _)
  | closed => exact hs

/-- The state since a baseline was opened over the keys `old`. While it is pinned no key goes away, and
exactly the keys that were not there are born later. -/
structure Since (old : FileHash → Bool) (baseline : Nat) (s : MemoryChunkState) : Prop where
  later : baseline < s.insertionGeneration
  kept : s.activeBaseline = some baseline → ∀ hash, old hash = true → s.resident hash = true
  born : s.activeBaseline = some baseline → ∀ hash chunk, s.find hash = some chunk →
    (baseline < chunk.birthGeneration ↔ old hash = false)

theorem Change.since (h : Change s t) (hs : Since old baseline s) : Since old baseline t := by
  cases h with
  | same => exact hs
  | insert hash buffer =>
    refine ⟨hs.later, fun hpin key hold => ?_, fun hpin key chunk hfind => ?_⟩
    · rw [resident_insertChunk, hs.kept hpin key hold, Bool.or_true]
    · rw [find_insertChunk] at hfind
      split at hfind
      next heq =>
        subst heq
        obtain rfl := Option.some.inj hfind
        cases hprevious : s.find key with
        | none =>
          refine iff_of_true hs.later (Bool.eq_false_iff.2 fun hold => ?_)
          have hresident := hs.kept hpin key hold
          rw [resident, hprevious] at hresident
          exact absurd hresident Bool.false_ne_true
        | some previous => exact hs.born hpin key previous hprevious
      next => exact hs.born hpin key chunk hfind
  | sweep reachable hfree =>
    have hnot : s.activeBaseline ≠ some baseline := by simp [hfree]
    exact ⟨hs.later, fun hpin => absurd hpin hnot, fun hpin => absurd hpin hnot⟩
  | opened _ =>
    have hnot : some s.insertionGeneration ≠ some baseline :=
      fun heq => hs.later.ne' (Option.some.inj heq)
    exact ⟨hs.later.trans (Nat.lt_succ_self _), fun hpin => absurd hpin hnot, fun hpin => absurd hpin hnot⟩
  | closed => exact ⟨hs.later, fun hpin => absurd hpin (by simp), fun hpin => absurd hpin (by simp)⟩

theorem since_opened (hs : s.Dated) (h : s.openCandidateBaseline expected = (.ok (), opened)) :
    Since s.resident expected opened := by
  rcases openCandidateBaseline_cases (s := s) expected with ⟨error, heq⟩ | ⟨-, rfl, heq⟩
  · exact absurd (congrArg Prod.fst (h.symm.trans heq)) (by simp)
  · obtain rfl := (Prod.mk.inj (h.symm.trans heq)).2
    refine ⟨Nat.lt_succ_self _, fun _ key hold => hold, fun _ key chunk hfind => ?_⟩
    refine iff_of_false (Nat.not_lt.2 (hs key chunk hfind)) ?_
    have hresident : s.resident key = true := Option.isSome_of_eq_some hfind
    rw [hresident]
    exact Bool.true_eq_false_eq_False

theorem Since.isFreshSince_iff (hs : Since old baseline s) :
    s.isFreshSince hash baseline = .ok true ↔
      s.activeBaseline = some baseline ∧ old hash = false ∧ s.resident hash = true := by
  rw [isFreshSince]
  split
  next hpin => exact iff_of_false (by simp) fun h => hpin h.1
  next hpin =>
    have hpinned := not_not.1 hpin
    cases hfind : s.find hash with
    | none => exact iff_of_false (by simp) fun h => by simp [resident, hfind] at h
    | some chunk =>
      have hborn := hs.born hpinned hash chunk hfind
      simp [resident, hfind, hpinned, hborn]

def Call.buffers : Call → List Buffer
  | .insert _ buffer => [buffer]
  | .promoteVerified staged _ => staged.val.map Prod.snd
  | .prepare staged _ => staged.val.map Prod.snd
  | .promotePrepared staged => staged.val.map Prod.snd
  | _ => []

/-- All buffers that are alive when a call starts lie in one address space. -/
def Live (s : MemoryChunkState) (call : Call) : Prop :=
  s.capacity + (call.buffers.map Buffer.capacity).sum ≤ u64Max

theorem capacity_insertChunk_le : (s.insertChunk hash buffer).capacity ≤ s.capacity + buffer.capacity := by
  rw [capacity, total_insertChunk, total_eq Buffer.capacity s hash]
  omega

theorem promote_sound (hf : ∀ s entry, f s entry = s ∨ f s entry = s.insertChunk entry.1 entry.2)
    (staged : List (FileHash × Buffer)) (h : s.Sound)
    (hlive : s.capacity + ((staged.map Prod.snd).map Buffer.capacity).sum ≤ u64Max) :
    (staged.foldl f s).Sound := by
  induction staged generalizing s with
  | nil => exact h
  | cons entry staged ih =>
    rw [map_cons, map_cons, sum_cons] at hlive
    rw [foldl_cons]
    rcases hf s entry with heq | heq
    · rw [heq]
      exact ih h (by omega)
    · rw [heq]
      have hgrow : (s.insertChunk entry.1 entry.2).capacity ≤ s.capacity + entry.2.capacity :=
        capacity_insertChunk_le
      exact ih (insertChunk_sound h (by omega)) (by omega)

theorem step_sound (hashBytes : Bytes → FileHash) (call : Call) (h : s.Sound) (hlive : Live s call) :
    (step hashBytes s call).Sound := by
  cases call with
  | insert hash buffer =>
    have hsum : s.capacity + buffer.capacity ≤ u64Max := by simpa [Live, Call.buffers] using hlive
    exact insertChunk_sound h (capacity_insertChunk_le.trans hsum)
  | delete hash =>
    rw [step, delete_eq_sweep]
    split
    next => exact h
    next => exact sweep_sound h _
  | promoteVerified staged reserved =>
    rw [step]
    rcases promoteVerifiedChunks_eq (s := s) hashBytes staged reserved with ⟨error, heq⟩ | heq
    · rw [heq]
      exact h
    · rw [heq]
      refine promote_sound (fun s entry => ?_) staged.val h hlive
      rw [fillVacant_eq]
      split
      next => exact .inl rfl
      next => exact .inr rfl
  | prepare staged reserved =>
    rw [step, prepareCandidateChunkPromotion_state]
    exact h
  | promotePrepared staged => exact promote_sound (fun s entry => .inr rfl) staged.val h hlive
  | retain reachable =>
    rw [step, retainChunks]
    split
    next => exact h
    next => exact sweep_sound h _
  | openBaseline expected =>
    rw [step]
    rcases openCandidateBaseline_cases (s := s) expected with ⟨error, heq⟩ | ⟨-, -, heq⟩
    · rw [heq]
      exact h
    · rw [heq]
      exact h
  | closeBaseline expected =>
    rw [step, closeCandidateBaseline]
    split
    next => exact h
    next => exact h

theorem run_sound (hashBytes : Bytes → FileHash) (calls : List Call) (h : s.Sound)
    (hlive : ∀ before call after, calls = before ++ call :: after → Live (run hashBytes s before) call) :
    (run hashBytes s calls).Sound := by
  induction calls generalizing s with
  | nil => exact h
  | cons call calls ih =>
    refine ih (step_sound hashBytes call h (hlive [] call calls rfl)) fun before next after heq => ?_
    exact hlive (call :: before) next after (by rw [heq]; rfl)

/-- Every run of the store from its start: the counters are the sums over the stored chunks unless more
was alive than an address space holds, freshness is residence now but not at the opening of the pinned
baseline, and a promotion that fails changes nothing. -/
theorem chunk_store_runs (hashBytes : Bytes → FileHash) (calls : List Call) :
    let s := run hashBytes .new calls
    s.memorySummary.chunks = (s.map.val.map fun _ => 1).sum ∧
    (s.memory.countersValid = true →
      s.memorySummary.payloadBytes = s.payload ∧ s.memorySummary.bufferCapacityBytes = s.capacity) ∧
    ((∀ before call after, calls = before ++ call :: after → Live (run hashBytes .new before) call) →
      s.memory.countersValid = true) ∧
    (∀ expected opened, s.openCandidateBaseline expected = (.ok (), opened) →
      ∀ later hash, (run hashBytes opened later).isFreshSince hash expected = .ok true ↔
        (run hashBytes opened later).activeBaseline = some expected ∧
        s.resident hash = false ∧ (run hashBytes opened later).resident hash = true) ∧
    (∀ staged reserved error t,
      s.promoteVerifiedChunks hashBytes staged reserved = (.error error, t) ∨
        s.prepareCandidateChunkPromotion hashBytes staged reserved = (.error error, t) → t = s) := by
  intro s
  have hnew : MemoryChunkState.new.Sound := rfl
  have hexact : Exact s := run_preserves (fun _ _ => Change.exact) hashBytes calls fun _ => hnew
  have hdated : s.Dated :=
    run_preserves (fun _ _ => Change.dated) hashBytes calls fun _ _ hfind => nomatch hfind
  refine ⟨by simp [memorySummary, len], fun hvalid => ?_, fun hlive => ?_, ?_, ?_⟩
  · have hsound := hexact hvalid
    rw [Sound] at hsound
    rw [memorySummary, hsound]
    exact ⟨rfl, rfl⟩
  · have hsound := run_sound hashBytes calls hnew hlive
    rw [hsound]
  · intro expected opened hopen later hash
    have hsince := run_preserves (fun _ _ => Change.since) hashBytes later (since_opened hdated hopen)
    exact hsince.isFreshSince_iff
  · intro staged reserved error t h
    rcases h with h | h
    · rcases promoteVerifiedChunks_eq (s := s) hashBytes staged reserved with ⟨error', heq⟩ | heq
      · exact (Prod.mk.inj (h.symm.trans heq)).2
      · exact absurd (congrArg Prod.fst (h.symm.trans heq)) (by simp)
    · have hstate := prepareCandidateChunkPromotion_state (s := s) hashBytes staged reserved
      rw [h] at hstate
      exact hstate

def sampleHash (b : UInt8) : FileHash := ⟨List.replicate 32 b, List.length_replicate⟩

def sampleBuffer : Buffer := ⟨[7], 8, by decide⟩

/-- One chunk comes before the baseline, one after it. -/
theorem chunk_store_runs_baseline :
    let hashBytes : Bytes → FileHash := fun _ => sampleHash 0
    let s := run hashBytes .new [.insert (sampleHash 1) sampleBuffer]
    ∃ opened, s.openCandidateBaseline 0 = (.ok (), opened) ∧
      let t := run hashBytes opened [.insert (sampleHash 2) sampleBuffer, .insert (sampleHash 1) sampleBuffer]
      t.isFreshSince (sampleHash 2) 0 = .ok true ∧ t.isFreshSince (sampleHash 1) 0 ≠ .ok true ∧
      s.memorySummary.payloadBytes = 1 := by
  intro hashBytes s
  obtain ⟨-, hcounters, hvalid, hfresh, -⟩ :=
    chunk_store_runs hashBytes [.insert (sampleHash 1) sampleBuffer]
  refine ⟨_, rfl, (hfresh 0 _ rfl _ _).2 ⟨rfl, by decide, by decide⟩, fun hnew => ?_, ?_⟩
  · exact absurd ((hfresh 0 _ rfl _ _).1 hnew).2.1 (by decide)
  · exact (hcounters rfl).1

end Obsetync.ChunkStore

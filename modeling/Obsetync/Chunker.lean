import Obsetync.Cutting
import Obsetync.Entry
import Obsetync.Fallible

namespace Obsetync.Chunker
open Cutting Fallible List

def minChunk : Nat := 256 * 1024

def avgChunk : Nat := 1024 * 1024

def maxChunk : Nat := 4 * 1024 * 1024

def streamingChunkerWindowBytes : Nat := maxChunk

structure ChunkRef where
  hash : FileHash
  offset : Nat
  size : Nat
  deriving DecidableEq

structure FileManifest where
  fileHash : FileHash
  totalSize : Nat
  chunks : List ChunkRef
  deriving DecidableEq

inductive Failure
  | failed (message : String)
  | panicked
  deriving DecidableEq

/-- The crates a chunker stands on: the first cut FastCDC makes in data that is not empty, for its
three sizes, and BLAKE3. -/
structure Crates where
  fastCdc : Nat → Nat → Nat → Bytes → Nat
  hashBytes : Bytes → FileHash

variable (crates : Crates)

def Crates.cut (data : Bytes) : Nat := crates.fastCdc minChunk avgChunk maxChunk data

/-- `FastCDC::new(data, ..).next()`. -/
def Crates.next (data : Bytes) : Option Nat := if data = [] then none else some (crates.cut data)

/-- `for chunk in FastCDC::new(data, ..)`: each chunk's offset and length. -/
def Crates.chunks : Nat → Nat → Bytes → List (Nat × Nat)
  | 0, _, _ => []
  | n + 1, offset, rest =>
    match crates.next rest with
    | none => []
    | some length => (offset, length) :: Crates.chunks n (offset + length) (rest.drop length)

/-- `fileHasher` holds the bytes the hasher was given. -/
structure StreamingChunker where
  pending : Bytes := []
  pendingStart : Nat := 0
  chunks : List ChunkRef := []
  fileHasher : Bytes := []
  totalSize : Nat := 0
  emittedSize : Nat := 0
  finished : Bool := false

def StreamingChunker.emitPrefix (chunker : StreamingChunker) (length : Nat) :
    Except Failure StreamingChunker :=
  let stop := chunker.pendingStart + length
  if chunker.pending.length < stop then .error .panicked
  else .ok { chunker with
    chunks := chunker.chunks ++
      [⟨crates.hashBytes ((chunker.pending.take stop).drop chunker.pendingStart),
        chunker.emittedSize, length % 2 ^ 32⟩]
    emittedSize := (chunker.emittedSize + length) % 2 ^ 64
    pendingStart := stop }

def StreamingChunker.reclaim (chunker : StreamingChunker) : StreamingChunker :=
  if chunker.pendingStart ≠ 0 then
    { chunker with pending := chunker.pending.drop chunker.pendingStart, pendingStart := 0 }
  else chunker

/-- The body of the loop in `update`. -/
def StreamingChunker.turn (chunker : StreamingChunker) (remaining : Bytes) :
    Except Failure (StreamingChunker × Bytes) := do
  let chunker := chunker.reclaim
  if streamingChunkerWindowBytes < chunker.pending.length then throw .panicked
  let available := streamingChunkerWindowBytes - chunker.pending.length
  let taken := min available remaining.length
  let chunker := { chunker with pending := chunker.pending ++ remaining.take taken }
  if chunker.pending.length = streamingChunkerWindowBytes then
    match crates.next chunker.pending with
    | none => throw (.failed "FastCDC produced no chunk")
    | some length => return (← chunker.emitPrefix crates length, remaining.drop taken)
  else return (chunker, remaining.drop taken)

/-- The loop in `update`, for at most `n` turns. -/
def StreamingChunker.turns : Nat → StreamingChunker → Bytes →
    Except Failure (StreamingChunker × Bytes)
  | 0, chunker, remaining => .ok (chunker, remaining)
  | _ + 1, chunker, [] => .ok (chunker, [])
  | n + 1, chunker, b :: remaining => do
    let (chunker, remaining) ← chunker.turn crates (b :: remaining)
    StreamingChunker.turns n chunker remaining

/-- What `update` does before its loop. -/
def StreamingChunker.admitBytes (chunker : StreamingChunker) (bytes : Bytes) :
    Except Failure StreamingChunker :=
  if chunker.finished then .error (.failed "chunker already finished")
  else if 2 ^ 64 ≤ chunker.totalSize + bytes.length then .error (.failed "file size overflow")
  else .ok { chunker with
    fileHasher := chunker.fileHasher ++ bytes
    totalSize := chunker.totalSize + bytes.length }

def StreamingChunker.update (chunker : StreamingChunker) (bytes : Bytes) :
    Except Failure StreamingChunker := do
  let chunker ← chunker.admitBytes bytes
  let (chunker, _) ← chunker.turns crates bytes.length bytes
  return chunker

/-- The loop in `finish`, for at most `n` turns. -/
def StreamingChunker.drain : Nat → StreamingChunker → Except Failure StreamingChunker
  | 0, chunker => .ok chunker
  | n + 1, chunker =>
    if chunker.pendingStart < chunker.pending.length then
      match crates.next (chunker.pending.drop chunker.pendingStart) with
      | none => .error (.failed "FastCDC produced no final chunk")
      | some length => do StreamingChunker.drain n (← chunker.emitPrefix crates length)
    else .ok chunker

def StreamingChunker.finish (chunker : StreamingChunker) :
    Except Failure (FileManifest × StreamingChunker) := do
  if chunker.finished then throw (.failed "chunker already finished")
  let chunker ← chunker.drain crates chunker.pending.length
  return (⟨crates.hashBytes chunker.fileHasher, chunker.totalSize, chunker.chunks⟩,
    { chunker with pending := [], pendingStart := 0, finished := true, chunks := [] })

structure ChunkedFile where
  manifest : FileManifest
  chunkData : List (FileHash × Bytes)

def slice (data : Bytes) (offset length : Nat) : Bytes := (data.drop offset).take length

def chunkFile (data : Bytes) : ChunkedFile :=
  let found := (crates.chunks data.length 0 data).map fun chunk =>
    (chunk, slice data chunk.1 chunk.2)
  { manifest :=
      { fileHash := crates.hashBytes data
        totalSize := data.length % 2 ^ 64
        chunks := found.map fun ((offset, length), bytes) =>
          ⟨crates.hashBytes bytes, offset % 2 ^ 64, length % 2 ^ 32⟩ }
    chunkData := found.map fun (_, bytes) => (crates.hashBytes bytes, bytes) }

/-- The loop in `reassemble_file`. -/
def gather (result : Bytes) : List (ChunkRef × FileHash × Bytes) → Option Bytes
  | [] => some result
  | (chunkRef, chunkHash, chunkData) :: rest =>
    if chunkHash ≠ chunkRef.hash ∨ chunkData.length ≠ chunkRef.size then none
    else gather (result ++ chunkData) rest

def reassembleFile (manifest : FileManifest) (chunks : List (FileHash × Bytes)) : Option Bytes :=
  if manifest.chunks.length ≠ chunks.length then none
  else do
    let result ← gather [] (manifest.chunks.zip chunks)
    if crates.hashBytes result ≠ manifest.fileHash then none else some result

def feed (fed : List Bytes) : Except Failure StreamingChunker :=
  fed.foldlM (fun chunker bytes => chunker.update crates bytes) {}

def refs : Nat → List Bytes → List ChunkRef
  | _, [] => []
  | offset, piece :: rest =>
    ⟨crates.hashBytes piece, offset, piece.length⟩ :: refs (offset + piece.length) rest

def Contiguous : Nat → List ChunkRef → Nat → Prop
  | start, [], stop => start = stop
  | start, chunk :: rest, stop =>
    chunk.offset = start ∧ 0 < chunk.size ∧ Contiguous (start + chunk.size) rest stop

variable {crates} {chunker chunker' : StreamingChunker} {consumed data : Bytes} {offset : Nat}
  {made : List Bytes} {futures : Set Bytes}

theorem refs_append : refs crates offset (made ++ more) =
      refs crates offset made ++ refs crates (offset + made.flatten.length) more := by
  induction made generalizing offset with
  | nil => rfl
  | cons piece made ih =>
    simp only [cons_append, refs, ih, flatten_cons, length_append, Nat.add_assoc]

theorem contiguous_refs (hne : ∀ piece ∈ made, piece ≠ []) :
    Contiguous offset (refs crates offset made) (offset + made.flatten.length) := by
  induction made generalizing offset with
  | nil => rfl
  | cons piece made ih =>
    obtain ⟨hpiece, hmade⟩ := forall_mem_cons.1 hne
    refine ⟨rfl, length_pos_iff.2 hpiece, ?_⟩
    rw [flatten_cons, length_append, ← Nat.add_assoc]
    exact ih hmade

theorem slice_append : slice (front ++ (piece ++ back)) front.length piece.length = piece := by
  rw [slice, drop_left, take_left]

theorem slices_refs {front : Bytes} : (refs crates front.length made).map
        (fun chunk => (chunk.hash, slice (front ++ made.flatten) chunk.offset chunk.size)) =
      made.map fun piece => (crates.hashBytes piece, piece) := by
  induction made generalizing front with
  | nil => rfl
  | cons piece made ih =>
    have hrest := @ih (front ++ piece)
    rw [length_append, append_assoc] at hrest
    rw [refs, map_cons, map_cons, flatten_cons, slice_append, hrest]

theorem gather_refs : gather result ((refs crates offset made).zip
      (made.map fun piece => (crates.hashBytes piece, piece))) = some (result ++ made.flatten) := by
  induction made generalizing result offset with
  | nil => simp [refs, gather]
  | cons piece made ih =>
    simp only [refs, map_cons, zip_cons_cons, gather, ne_eq, not_true_eq_false, or_self, if_false]
    rw [ih, flatten_cons, append_assoc]

theorem length_refs : (refs crates offset made).length = made.length := by
  induction made generalizing offset with
  | nil => rfl
  | cons piece made ih => rw [refs, length_cons, length_cons, ih]

theorem Crates.next_of_ne_nil (hne : data ≠ []) : crates.next data = some (crates.cut data) :=
  if_neg hne

section OneShot

variable (hcut : FirstCut maxChunk crates.cut)

include hcut

theorem lt_of_piece (h : piece ∈ pieces crates.cut data) :
    piece.length % 2 ^ 32 = piece.length := by
  have hle := (mem_pieces hcut h).2
  rw [maxChunk] at hle
  exact Nat.mod_eq_of_lt (by omega)

theorem chunks_spec {n : Nat} {front : Bytes} (hn : data.length ≤ n)
    (hlen : (front ++ data).length < 2 ^ 64) : (crates.chunks n front.length data).map (fun chunk =>
        ((⟨crates.hashBytes (slice (front ++ data) chunk.1 chunk.2), chunk.1 % 2 ^ 64,
          chunk.2 % 2 ^ 32⟩ : ChunkRef), slice (front ++ data) chunk.1 chunk.2)) =
      (refs crates front.length (pieces crates.cut data)).zip (pieces crates.cut data) := by
  induction n generalizing data front with
  | zero =>
    obtain rfl := eq_nil_of_length_eq_zero (Nat.le_zero.1 hn)
    rfl
  | succ n ih =>
    by_cases hne : data = []
    · subst hne
      rfl
    · have hlt := hcut.drop_lt hne
      have hfront : (data.take (crates.cut data)).length = crates.cut data :=
        length_take_of_le (hcut.le_length data)
      have hrest := (@ih (data.drop (crates.cut data))) (by omega)
        (by rwa [append_assoc, take_append_drop])
      rw [append_assoc, take_append_drop, length_append, hfront] at hrest
      have hslice : slice (front ++ data) front.length (crates.cut data) =
          data.take (crates.cut data) := by
        rw [slice, drop_left]
      have hsize := lt_of_piece hcut (by rw [pieces_eq hcut hne]; exact mem_cons_self)
      rw [hfront] at hsize
      have hoffset : front.length % 2 ^ 64 = front.length := by
        rw [length_append] at hlen
        exact Nat.mod_eq_of_lt (by omega)
      rw [Crates.chunks, Crates.next_of_ne_nil hne, pieces_eq hcut hne, refs, hfront,
        zip_cons_cons, ← hrest]
      simp only [map_cons, hslice, hsize, hoffset]

theorem chunkFile_spec (hlen : data.length < 2 ^ 64) : chunkFile crates data =
      ⟨⟨crates.hashBytes data, data.length, refs crates 0 (pieces crates.cut data)⟩,
        (pieces crates.cut data).map fun piece => (crates.hashBytes piece, piece)⟩ := by
  have hspec := @chunks_spec _ _ hcut _ [] (Nat.le_refl data.length) hlen
  rw [nil_append, length_nil] at hspec
  have hrefs := congrArg (List.map Prod.fst) hspec
  have hbytes := congrArg (List.map Prod.snd) hspec
  rw [map_fst_zip (Nat.le_of_eq length_refs), map_map] at hrefs
  rw [map_snd_zip (Nat.le_of_eq length_refs.symm), map_map] at hbytes
  rw [chunkFile, Nat.mod_eq_of_lt hlen, ← hrefs]
  simp only [map_map]
  rw [← hbytes, map_map]
  rfl

theorem reassembleFile_pieces (totalSize : Nat) : reassembleFile crates
        ⟨crates.hashBytes data, totalSize, refs crates 0 (pieces crates.cut data)⟩
        ((pieces crates.cut data).map fun piece => (crates.hashBytes piece, piece)) =
      some data := by
  rw [reassembleFile, if_neg (by simp [length_refs]), gather_refs, nil_append, flatten_pieces hcut]
  exact if_neg (by simp)

end OneShot

def StreamingChunker.live (chunker : StreamingChunker) : Bytes :=
  chunker.pending.drop chunker.pendingStart

/-- `chunker` has taken in `consumed`: the chunks it emitted stay the first ones whichever of
`futures` still comes. -/
structure Taken (crates : Crates) (futures : Set Bytes) (consumed : Bytes)
    (chunker : StreamingChunker) (made : List Bytes) : Prop where
  chunks : chunker.chunks = refs crates 0 made
  emitted : chunker.emittedSize = made.flatten.length
  split : made.flatten ++ chunker.live = consumed
  final : ∀ later ∈ futures, pieces crates.cut (consumed ++ later) =
    made ++ pieces crates.cut (chunker.live ++ later)
  start : chunker.pendingStart ≤ chunker.pending.length
  bounded : chunker.pending.length ≤ streamingChunkerWindowBytes

/-- Between the turns of a loop a full buffer has room to reclaim. -/
def Roomy (chunker : StreamingChunker) : Prop :=
  chunker.pending.length = streamingChunkerWindowBytes → chunker.pendingStart ≠ 0

/-- Cutting leaves the rest of the record alone. -/
structure Same (chunker chunker' : StreamingChunker) : Prop where
  fileHasher : chunker'.fileHasher = chunker.fileHasher
  totalSize : chunker'.totalSize = chunker.totalSize
  finished : chunker'.finished = chunker.finished

theorem Same.refl : Same chunker chunker := ⟨rfl, rfl, rfl⟩

theorem Same.trans (h : Same chunker chunker') (h' : Same chunker' last) : Same chunker last :=
  ⟨h'.fileHasher.trans h.fileHasher, h'.totalSize.trans h.totalSize, h'.finished.trans h.finished⟩

theorem Same.reclaim (chunker : StreamingChunker) : Same chunker chunker.reclaim := by
  rw [StreamingChunker.reclaim]
  split <;> exact ⟨rfl, rfl, rfl⟩

theorem Taken.new : Taken crates .univ [] {} [] where
  chunks := rfl
  emitted := rfl
  split := rfl
  final _ _ := rfl
  start := Nat.le_refl _
  bounded := Nat.zero_le _

theorem Taken.reclaim (h : Taken crates futures consumed chunker made) (hroom : Roomy chunker) :
    Taken crates futures consumed chunker.reclaim made ∧ chunker.reclaim.pendingStart = 0 ∧
      chunker.reclaim.pending.length < streamingChunkerWindowBytes := by
  have hstart := h.start
  have hbound := h.bounded
  rw [StreamingChunker.reclaim]
  by_cases hz : chunker.pendingStart = 0
  · rw [if_neg (not_not.2 hz)]
    exact ⟨h, hz, lt_of_le_of_ne hbound fun he => hroom he hz⟩
  · rw [if_pos hz]
    have hlive : ({ chunker with
        pending := chunker.pending.drop chunker.pendingStart, pendingStart := 0 } :
          StreamingChunker).live = chunker.live := drop_zero
    have hlen : (chunker.pending.drop chunker.pendingStart).length <
        streamingChunkerWindowBytes := by
      rw [length_drop]
      omega
    exact ⟨⟨h.chunks, h.emitted, by rw [hlive]; exact h.split,
      fun later hl => by rw [hlive]; exact h.final later hl, Nat.zero_le _, hlen.le⟩, rfl, hlen⟩

theorem Taken.extend (h : Taken crates .univ consumed chunker made) (more : Bytes)
    (hfits : chunker.pending.length + more.length ≤ streamingChunkerWindowBytes) :
    Taken crates .univ (consumed ++ more) { chunker with pending := chunker.pending ++ more } made := by
  have hlive : ({ chunker with pending := chunker.pending ++ more } : StreamingChunker).live =
      chunker.live ++ more := drop_append_of_le_length h.start
  exact {
    chunks := h.chunks
    emitted := h.emitted
    split := by rw [hlive, ← append_assoc, h.split]
    final := fun later _ => by
      rw [hlive, append_assoc, h.final _ trivial, append_assoc]
    start := h.start.trans (by simp)
    bounded := by rwa [length_append] }

section Streaming

variable (hcut : FirstCut maxChunk crates.cut)

include hcut

theorem Taken.emitPrefix (h : Taken crates futures consumed chunker made)
    (hlen : consumed.length < 2 ^ 64)
    (hsettled : ∀ later ∈ futures, pieces crates.cut (chunker.live ++ later) =
      chunker.live.take (crates.cut chunker.live) ::
        pieces crates.cut (chunker.live.drop (crates.cut chunker.live) ++ later)) :
    ∃ chunker', chunker.emitPrefix crates (crates.cut chunker.live) = .ok chunker' ∧
      Taken crates futures consumed chunker' (made ++ [chunker.live.take (crates.cut chunker.live)]) ∧
      chunker'.pending = chunker.pending ∧
      chunker'.pendingStart = chunker.pendingStart + crates.cut chunker.live ∧
      Same chunker chunker' := by
  have hstart := h.start
  have hle := hcut.le_length chunker.live
  have hmax := hcut.le_window chunker.live
  have hlive : chunker.live.length = chunker.pending.length - chunker.pendingStart :=
    length_drop
  have hsplit := congrArg List.length h.split
  rw [length_append] at hsplit
  rw [StreamingChunker.emitPrefix, if_neg (by omega)]
  refine ⟨_, rfl, ?_, rfl, rfl, rfl, rfl, rfl⟩
  generalize hn : crates.cut chunker.live = n at *
  have hslice : (chunker.pending.take (chunker.pendingStart + n)).drop chunker.pendingStart =
      chunker.live.take n := by
    rw [drop_take, Nat.add_sub_cancel_left, StreamingChunker.live]
  have hsize : (chunker.live.take n).length = n := length_take_of_le hle
  have hdrop : chunker.pending.drop (chunker.pendingStart + n) = chunker.live.drop n := by
    rw [StreamingChunker.live, drop_drop]
  rw [maxChunk] at hmax
  exact {
    chunks := by
      simp only [h.chunks, hslice, refs_append, refs, hsize, h.emitted, Nat.zero_add,
        Nat.mod_eq_of_lt (show n < 2 ^ 32 by omega)]
    emitted := by
      simp only [h.emitted, flatten_append, flatten_singleton, length_append, hsize]
      exact Nat.mod_eq_of_lt (by omega)
    split := by
      simp only [StreamingChunker.live, hdrop, flatten_append, flatten_singleton,
        append_assoc, ← h.split]
      rw [← StreamingChunker.live, take_append_drop]
    final := fun later hlater => by
      simp only [StreamingChunker.live, hdrop]
      rw [h.final later hlater, hsettled later hlater, ← StreamingChunker.live, append_assoc, singleton_append]
    start := by
      change chunker.pendingStart + n ≤ chunker.pending.length
      omega
    bounded := h.bounded }

theorem Taken.turn (h : Taken crates .univ consumed chunker made) (hroom : Roomy chunker)
    (hne : remaining ≠ []) (hlen : (consumed ++ remaining).length < 2 ^ 64) :
    ∃ taken rest chunker' made', taken ≠ [] ∧ remaining = taken ++ rest ∧
      chunker.turn crates remaining = .ok (chunker', rest) ∧
      Taken crates .univ (consumed ++ taken) chunker' made' ∧ Roomy chunker' ∧
      Same chunker chunker' := by
  obtain ⟨hr, hzero, hlt⟩ := h.reclaim hroom
  have hsame := Same.reclaim chunker
  rw [StreamingChunker.turn]
  dsimp only
  generalize chunker.reclaim = reclaimed at *
  generalize htake : min (streamingChunkerWindowBytes - reclaimed.pending.length)
    remaining.length = n
  have hpos := length_pos_iff.2 hne
  have hn : (remaining.take n).length = n := length_take_of_le (by omega)
  have htaken : remaining.take n ≠ [] := by
    rw [← length_pos_iff, hn]
    omega
  have hext := hr.extend (remaining.take n) (by omega)
  have hsame : Same chunker { reclaimed with pending := reclaimed.pending ++ remaining.take n } :=
    ⟨hsame.fileHasher, hsame.totalSize, hsame.finished⟩
  have hlen' : (consumed ++ remaining.take n).length < 2 ^ 64 := by
    rw [length_append] at hlen ⊢
    omega
  rw [if_neg (Nat.not_lt.2 hlt.le)]
  refine ⟨remaining.take n, remaining.drop n, ?_⟩
  by_cases hfull : (reclaimed.pending ++ remaining.take n).length = streamingChunkerWindowBytes
  · have hlive : ({ reclaimed with pending := reclaimed.pending ++ remaining.take n } :
        StreamingChunker).live = reclaimed.pending ++ remaining.take n := by
      rw [StreamingChunker.live, hzero, drop_zero]
    have hbuffer : reclaimed.pending ++ remaining.take n ≠ [] :=
      append_ne_nil_of_right_ne_nil _ htaken
    obtain ⟨chunker', hemit, hchunker', hpending, hstart, hframe⟩ :=
      hext.emitPrefix hcut hlen' fun later _ => by
        rw [hlive]
        exact pieces_append hcut hbuffer (Nat.le_of_eq hfull.symm)
    rw [hlive] at hemit hstart
    refine ⟨chunker', _, htaken, (take_append_drop n remaining).symm, ?_, hchunker', ?_,
      hsame.trans hframe⟩
    · rw [if_pos hfull, Crates.next_of_ne_nil hbuffer]
      dsimp only
      rw [hemit]
      rfl
    · intro _
      have hcutpos := hcut.pos _ hbuffer
      omega
  · refine ⟨_, made, htaken, (take_append_drop n remaining).symm, ?_, hext, ?_, hsame⟩
    · rw [if_neg hfull]
      rfl
    · intro heq
      exact absurd heq hfull

theorem Taken.turns {n : Nat} {remaining : Bytes} (h : Taken crates .univ consumed chunker made)
    (hroom : Roomy chunker) (hlen : (consumed ++ remaining).length < 2 ^ 64) :
    ∃ taken rest chunker' made', remaining = taken ++ rest ∧ rest.length ≤ remaining.length - n ∧
      chunker.turns crates n remaining = .ok (chunker', rest) ∧
      Taken crates .univ (consumed ++ taken) chunker' made' ∧ Roomy chunker' ∧
      Same chunker chunker' := by
  induction n generalizing chunker consumed remaining made with
  | zero =>
    exact ⟨[], remaining, chunker, made, rfl, Nat.le_refl _, by rw [StreamingChunker.turns],
      by rwa [append_nil], hroom, .refl⟩
  | succ n ih =>
    cases remaining with
    | nil =>
      exact ⟨[], [], chunker, made, rfl, Nat.zero_le _, by rw [StreamingChunker.turns],
        by rwa [append_nil], hroom, .refl⟩
    | cons b remaining =>
      obtain ⟨taken, rest, next, made', htaken, heq, hturn, hnext, hroom', hsame⟩ :=
        h.turn hcut hroom (cons_ne_nil b remaining) hlen
      rw [heq, ← append_assoc] at hlen
      obtain ⟨taken', rest', last, made'', rfl, hrest, hturns, hlast, hroom'', hsame'⟩ :=
        ih hnext hroom' hlen
      refine ⟨taken ++ taken', rest', last, made'', by rw [heq, append_assoc], ?_, ?_,
        by rwa [← append_assoc], hroom'', hsame.trans hsame'⟩
      · have hcount := congrArg List.length heq
        have hpos := length_pos_iff.2 htaken
        rw [length_append] at hcount
        omega
      · rw [StreamingChunker.turns, hturn]
        exact hturns

/-- What a chunker that was given `given` holds between two calls. -/
structure Fed (crates : Crates) (given : Bytes) (chunker : StreamingChunker) : Prop where
  taken : ∃ made, Taken crates .univ given chunker made
  roomy : Roomy chunker
  hashed : chunker.fileHasher = given
  total : chunker.totalSize = given.length
  unfinished : chunker.finished = false

omit hcut in
theorem Fed.new : Fed crates [] {} where
  taken := ⟨[], .new⟩
  roomy h := by cases h
  hashed := rfl
  total := rfl
  unfinished := rfl

omit hcut in
theorem Fed.admitBytes (h : Fed crates given chunker) (hlen : (given ++ bytes).length < 2 ^ 64) :
    chunker.admitBytes bytes = .ok { chunker with
      fileHasher := given ++ bytes, totalSize := (given ++ bytes).length } := by
  rw [length_append] at hlen ⊢
  rw [StreamingChunker.admitBytes, h.unfinished, h.total, h.hashed, if_neg Bool.false_ne_true,
    if_neg (Nat.not_le.2 hlen)]

theorem Fed.turns {given bytes : Bytes} (h : Fed crates given chunker)
    (hlen : (given ++ bytes).length < 2 ^ 64) (n : Nat) :
    ∃ admitted taken rest chunker' made, chunker.admitBytes bytes = .ok admitted ∧
      admitted.turns crates n bytes = .ok (chunker', rest) ∧ bytes = taken ++ rest ∧
      rest.length ≤ bytes.length - n ∧ Taken crates .univ (given ++ taken) chunker' made ∧
      Roomy chunker' ∧ Same admitted chunker' ∧ admitted.fileHasher = given ++ bytes ∧
      admitted.totalSize = (given ++ bytes).length ∧ admitted.finished = false := by
  obtain ⟨made, htaken⟩ := h.taken
  have hadmitted : Taken crates .univ given { chunker with
      fileHasher := given ++ bytes, totalSize := (given ++ bytes).length } made :=
    ⟨htaken.chunks, htaken.emitted, htaken.split, htaken.final, htaken.start, htaken.bounded⟩
  obtain ⟨taken, rest, chunker', made', heq, hrest, hturns, hchunker', hroom, hsame⟩ :=
    hadmitted.turns hcut (n := n) h.roomy hlen
  exact ⟨_, taken, rest, chunker', made', h.admitBytes hlen, hturns, heq, hrest, hchunker', hroom,
    hsame, rfl, rfl, h.unfinished⟩

theorem Fed.update {given bytes : Bytes} (h : Fed crates given chunker)
    (hlen : (given ++ bytes).length < 2 ^ 64) :
    ∃ chunker', chunker.update crates bytes = .ok chunker' ∧
      Fed crates (given ++ bytes) chunker' := by
  obtain ⟨admitted, taken, rest, chunker', made, hinput, hturns, heq, hrest, htaken, hroom,
    hsame, hhash, htotal, hfinished⟩ := h.turns hcut hlen bytes.length
  rw [Nat.sub_self] at hrest
  obtain rfl := eq_nil_of_length_eq_zero (Nat.le_zero.1 hrest)
  rw [append_nil] at heq
  subst heq
  refine ⟨chunker', ?_, ⟨made, htaken⟩, hroom, hsame.fileHasher.trans hhash,
    hsame.totalSize.trans htotal, hsame.finished.trans hfinished⟩
  rw [StreamingChunker.update, hinput]
  change (admitted.turns crates bytes.length bytes >>= fun p => pure p.1) = _
  rw [hturns]
  rfl

theorem Fed.foldlM {fed : List Bytes} (h : Fed crates given chunker)
    (hlen : (given ++ fed.flatten).length < 2 ^ 64) :
    ∃ chunker', fed.foldlM (fun chunker bytes => chunker.update crates bytes) chunker =
      .ok chunker' ∧ Fed crates (given ++ fed.flatten) chunker' := by
  induction fed generalizing given chunker with
  | nil => exact ⟨chunker, rfl, by rwa [flatten_nil, append_nil]⟩
  | cons bytes fed ih =>
    rw [flatten_cons, ← append_assoc] at hlen ⊢
    obtain ⟨next, hupdate, hnext⟩ := @Fed.update _ _ hcut _ bytes h (by
      rw [length_append] at hlen
      omega)
    obtain ⟨last, hfold, hlast⟩ := ih hnext hlen
    refine ⟨last, ?_, hlast⟩
    rw [foldlM_cons, hupdate]
    exact hfold

theorem fed_feed {fed : List Bytes} (hlen : fed.flatten.length < 2 ^ 64) :
    ∃ chunker, feed crates fed = .ok chunker ∧ Fed crates fed.flatten chunker :=
  Fed.new.foldlM hcut hlen

omit hcut in
theorem Taken.chunks_of_empty (h : Taken crates {[]} consumed chunker made)
    (hempty : chunker.live = []) : chunker.chunks = refs crates 0 (pieces crates.cut consumed) := by
  have hfinal := h.final [] rfl
  rw [hempty, append_nil, append_nil, pieces_nil, append_nil] at hfinal
  rw [hfinal, h.chunks]

theorem Taken.drain (h : Taken crates {[]} consumed chunker made) (hlen : consumed.length < 2 ^ 64)
    (hn : chunker.live.length ≤ n) : ∃ chunker', chunker.drain crates n = .ok chunker' ∧
      chunker'.chunks = refs crates 0 (pieces crates.cut consumed) ∧ Same chunker chunker' := by
  induction n generalizing chunker made with
  | zero =>
    exact ⟨chunker, rfl, h.chunks_of_empty (eq_nil_of_length_eq_zero (Nat.le_zero.1 hn)), .refl⟩
  | succ n ih =>
    have hlive : chunker.live.length = chunker.pending.length - chunker.pendingStart :=
      length_drop
    rw [StreamingChunker.drain]
    by_cases hlt : chunker.pendingStart < chunker.pending.length
    · have hne : chunker.live ≠ [] := by
        rw [← length_pos_iff]
        omega
      obtain ⟨next, hemit, hnext, hpending, hstart, hsame⟩ :=
        h.emitPrefix hcut hlen fun later hlater => by
          rw [hlater, append_nil, append_nil]
          exact pieces_eq hcut hne
      have hfewer : next.live.length ≤ n := by
        have hpos := hcut.pos _ hne
        rw [StreamingChunker.live, hpending, hstart, length_drop]
        omega
      obtain ⟨last, hdrain, hlast, hsame'⟩ := ih hnext hfewer
      refine ⟨last, ?_, hlast, hsame.trans hsame'⟩
      rw [if_pos hlt, ← StreamingChunker.live, Crates.next_of_ne_nil hne]
      dsimp only
      rw [hemit]
      exact hdrain
    · exact ⟨chunker, if_neg hlt, h.chunks_of_empty (eq_nil_of_length_eq_zero (by omega)), .refl⟩

theorem Fed.finish (h : Fed crates given chunker) (hlen : given.length < 2 ^ 64) :
    ∃ last, chunker.finish crates = .ok (⟨crates.hashBytes given, given.length,
      refs crates 0 (pieces crates.cut given)⟩, last) := by
  obtain ⟨made, htaken⟩ := h.taken
  have hclosed : Taken crates {[]} given chunker made :=
    ⟨htaken.chunks, htaken.emitted, htaken.split, fun later _ => htaken.final later trivial,
      htaken.start, htaken.bounded⟩
  obtain ⟨drained, hdrain, hchunks, hsame⟩ := hclosed.drain hcut hlen
    (n := chunker.pending.length) (by
      rw [StreamingChunker.live, length_drop]
      exact Nat.sub_le _ _)
  refine ⟨{ drained with pending := [], pendingStart := 0, finished := true, chunks := [] }, ?_⟩
  rw [StreamingChunker.finish, h.unfinished, hdrain]
  change Except.ok _ = _
  rw [hchunks, hsame.fileHasher, hsame.totalSize, h.hashed, h.total]

end Streaming

/-- However the content is cut into the pieces fed, the stream makes the manifest of the whole
content and holds at most one window; the caller finds in its source, where the manifest says,
the chunks that chunking at once returns. A slice has fewer than `2 ^ 64` bytes. -/
theorem streaming_chunker (crates : Crates) (hcut : FirstCut maxChunk crates.cut)
    (fed : List Bytes) (hlen : fed.flatten.length < 2 ^ 64) :
    (∃ chunker last, feed crates fed = .ok chunker ∧
      chunker.pending.length ≤ streamingChunkerWindowBytes ∧
      chunker.finish crates = .ok ((chunkFile crates fed.flatten).manifest, last)) ∧
    (∀ before bytes after, fed = before ++ bytes :: after → ∀ n,
      ∃ chunker admitted during rest, feed crates before = .ok chunker ∧
        chunker.admitBytes bytes = .ok admitted ∧ admitted.turns crates n bytes = .ok (during, rest) ∧
        during.pending.length ≤ streamingChunkerWindowBytes) ∧
    (chunkFile crates fed.flatten).manifest.chunks.map
        (fun chunk => (chunk.hash, slice fed.flatten chunk.offset chunk.size)) =
      (chunkFile crates fed.flatten).chunkData ∧
    Contiguous 0 (chunkFile crates fed.flatten).manifest.chunks fed.flatten.length ∧
    reassembleFile crates (chunkFile crates fed.flatten).manifest
      (chunkFile crates fed.flatten).chunkData = some fed.flatten := by
  rw [chunkFile_spec hcut hlen]
  refine ⟨?_, ?_, ?_, ?_, reassembleFile_pieces hcut _⟩
  · obtain ⟨chunker, hfeed, hfed⟩ := fed_feed hcut hlen
    obtain ⟨made, htaken⟩ := hfed.taken
    obtain ⟨last, hfinish⟩ := hfed.finish hcut hlen
    exact ⟨chunker, last, hfeed, htaken.bounded, hfinish⟩
  · rintro before bytes after rfl n
    rw [flatten_append, flatten_cons, ← append_assoc, length_append] at hlen
    obtain ⟨chunker, hfeed, hfed⟩ := @fed_feed _ hcut before (by
      rw [length_append] at hlen
      omega)
    obtain ⟨admitted, taken, rest, during, made, hinput, hturns, -, -, htaken, -⟩ :=
      @Fed.turns _ _ hcut _ bytes hfed (by omega) n
    exact ⟨chunker, admitted, during, rest, hfeed, hinput, hturns, htaken.bounded⟩
  · have hslices := @slices_refs crates (pieces crates.cut fed.flatten) []
    rwa [flatten_pieces hcut] at hslices
  · have hcontiguous := @contiguous_refs crates 0 (pieces crates.cut fed.flatten) fun piece hpiece => (mem_pieces hcut hpiece).1
    rwa [flatten_pieces hcut, Nat.zero_add] at hcontiguous

def atMaximum : Crates where
  fastCdc _ _ max data := min max data.length
  hashBytes data := ⟨(data ++ List.replicate 32 0).take 32, by simp⟩

theorem streaming_chunker_at_maximum : FirstCut maxChunk atMaximum.cut ∧
    ∃ chunker last, feed atMaximum [[1], [], [2, 3]] = .ok chunker ∧
      chunker.pending.length ≤ streamingChunkerWindowBytes ∧
      chunker.finish atMaximum = .ok ((chunkFile atMaximum [1, 2, 3]).manifest, last) := by
  have hcut : FirstCut maxChunk atMaximum.cut := {
    pos := fun data hne => by
      have hpos := length_pos_iff.2 hne
      exact lt_min (by decide) hpos
    le_length := fun data => min_le_right _ _
    windowed := fun data => by
      simp [Crates.cut, atMaximum] }
  exact ⟨hcut, (streaming_chunker atMaximum hcut [[1], [], [2, 3]] (by decide)).1⟩

end Obsetync.Chunker

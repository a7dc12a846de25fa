import Obsetync.TreeV1.Tree
import Obsetync.Wire

/-! An encoding that meets what is assumed of the FlatBuffers one, for trees of any size. -/

namespace Obsetync.TreeV1
open Wire

def unary (n : Nat) : Bytes := List.replicate n 1 ++ [0]

def readUnary : Reader ChunkError Nat
  | [] => .error (.deserialize "truncated number")
  | b :: bytes =>
    if b = 0 then .ok (0, bytes) else (readUnary bytes).map fun (n, rest) => (n + 1, rest)

def unaryList (enc : α → Bytes) (l : List α) : Bytes := unary l.length ++ l.flatMap enc

def readList (r : Reader ChunkError α) : Reader ChunkError (List α) := do many r (← readUnary)

def unaryString (s : String) : Bytes := unaryList (fun c => unary c.toNat) s.toList

def readString : Reader ChunkError String := do
  return String.ofList (← readList (do return Char.ofNat (← readUnary)))

def unaryHash (hash : FileHash) : Bytes := unaryList (fun b => unary b.toNat) hash.val

def toHash (bytes : Bytes) : Except ChunkError FileHash :=
  if h : bytes.length = 32 then .ok ⟨bytes, h⟩ else .error (.deserialize "not a hash")

def readHash : Reader ChunkError FileHash := do
  ask (toHash (← readList (do return UInt8.ofNat (← readUnary))))

def unaryEntry (e : FileEntry) : Bytes :=
  unaryString e.path ++ (unaryHash e.hash ++ (unary e.mtimeMs.toNat ++ unary e.sizeBytes.toNat))

def readEntry : Reader ChunkError FileEntry := do
  let path ← readString
  let hash ← readHash
  let mtime ← readUnary
  let size ← readUnary
  return ⟨path, hash, UInt64.ofNat mtime, UInt64.ofNat size⟩

def unaryChild (child : String × FileHash) : Bytes := unaryString child.1 ++ unaryHash child.2

def readChild : Reader ChunkError (String × FileHash) := do
  let pre ← readString
  let hash ← readHash
  return (pre, hash)

def unaryCodec : NodeCodec where
  encodeLeaf entries := 0 :: unaryList unaryEntry entries
  decodeLeaf
    | 0 :: bytes => (readList readEntry bytes).map Prod.fst
    | _ => .error (.deserialize "not a leaf")
  encodeInternal children := 1 :: unaryList unaryChild children
  decodeInternal
    | 1 :: bytes => (readList readChild bytes).map Prod.fst
    | _ => .error (.deserialize "not an internal node")

theorem reads_unary (n : Nat) : Reads readUnary (unary n) n := by
  intro rest
  induction n with
  | zero => rfl
  | succ n ih =>
    change (readUnary (unary n ++ rest)).map _ = _
    rw [ih]
    rfl

theorem reads_map {f : α → β} (h : Reads r bytes a) : Reads (do return f (← r)) bytes (f a) :=
  h.last Reads.pure

theorem reads_list (l : List α) (h : ∀ a ∈ l, Reads r (enc a) a) :
    Reads (readList r) (unaryList enc l) l :=
  (reads_unary l.length).bind (reads_many l h)

theorem reads_string (s : String) : Reads readString (unaryString s) s := by
  have hchar : ∀ c ∈ s.toList, Reads (do return Char.ofNat (← readUnary)) (unary c.toNat) c := by
    intro c _
    have hread := reads_map (f := Char.ofNat) (reads_unary c.toNat)
    rwa [Char.ofNat_toNat] at hread
  have hread := reads_map (f := String.ofList) (reads_list s.toList hchar)
  rwa [String.ofList_toList] at hread

theorem reads_hash (hash : FileHash) : Reads readHash (unaryHash hash) hash := by
  have hbyte : ∀ b ∈ hash.val, Reads (do return UInt8.ofNat (← readUnary)) (unary b.toNat) b := by
    intro b _
    have hread := reads_map (f := UInt8.ofNat) (reads_unary b.toNat)
    rwa [UInt8.ofNat_toNat] at hread
  have hask : Reads (ask (toHash hash.val)) [] hash := by
    intro rest
    rw [toHash, dif_pos hash.property]
    rfl
  exact (reads_list hash.val hbyte).last hask

theorem reads_entry (e : FileEntry) : Reads readEntry (unaryEntry e) e := by
  have hfields : FileEntry.mk e.path e.hash (UInt64.ofNat e.mtimeMs.toNat)
      (UInt64.ofNat e.sizeBytes.toNat) = e := by
    rw [UInt64.ofNat_toNat, UInt64.ofNat_toNat]
  have hsize := reads_map (f := fun size => FileEntry.mk e.path e.hash
    (UInt64.ofNat e.mtimeMs.toNat) (UInt64.ofNat size)) (reads_unary e.sizeBytes.toNat)
  rw [hfields] at hsize
  exact (reads_string e.path).bind ((reads_hash e.hash).bind
    ((reads_unary e.mtimeMs.toNat).bind hsize))

theorem reads_child (child : String × FileHash) : Reads readChild (unaryChild child) child :=
  (reads_string child.1).bind (reads_map (f := fun hash => (child.1, hash)) (reads_hash child.2))

theorem unaryCodec_leaf (entries : List FileEntry) :
    unaryCodec.decodeLeaf (unaryCodec.encodeLeaf entries) = .ok entries := by
  have hread := reads_list entries (fun e _ => reads_entry e) []
  rw [List.append_nil] at hread
  change (readList readEntry (unaryList unaryEntry entries)).map Prod.fst = _
  rw [hread]
  rfl

theorem unaryCodec_internal (children : List (String × FileHash)) :
    unaryCodec.decodeInternal (unaryCodec.encodeInternal children) = .ok children := by
  have hread := reads_list children (fun child _ => reads_child child) []
  rw [List.append_nil] at hread
  change (readList readChild (unaryList unaryChild children)).map Prod.fst = _
  rw [hread]
  rfl

theorem unaryCodec_lawful : unaryCodec.Lawful where
  leaf entries _ := unaryCodec_leaf entries
  internal children _ := unaryCodec_internal children
  tagged _ := ⟨_, rfl⟩

end Obsetync.TreeV1

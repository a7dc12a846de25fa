import Obsetync.DiffPage.Plugin

/-! Where the plugin reads a page as the server wrote it. -/

namespace Obsetync.DiffPage.Plugin
open Wire Fallible Keyed
open List hiding take

/-- The reader takes exactly `bytes` and ends as `x` does. -/
def Answers (r : Reader ε α) (bytes : Bytes) (x : Except ε α) : Prop :=
  ∀ rest, r (bytes ++ rest) = x.map fun a => (a, rest)

section Answers

variable {ε α β : Type} {r : Reader ε α} {f : α → Reader ε β} {g : α → Except ε β} {x : Except ε α}
  {y : Except ε β} {a : α} {bytes more : Bytes}

theorem answers_bind (h : Answers r bytes x) (hf : ∀ a, x = .ok a → Answers (f a) more (g a)) :
    Answers (r >>= f) (bytes ++ more) (x >>= g) := by
  intro rest
  have hr := h (more ++ rest)
  rw [← append_assoc] at hr
  change (r (bytes ++ more ++ rest) >>= fun p => f p.1 p.2) = _
  rw [hr]
  cases x with
  | error e => rfl
  | ok a => exact hf a rfl rest

theorem answers_reads_bind (h : Reads r bytes a) (hf : Answers (f a) more y) :
    Answers (r >>= f) (bytes ++ more) y :=
  answers_bind (x := .ok a) (g := fun _ => y) h fun _ heq => Except.ok.inj heq ▸ hf

theorem answers_ask_bind (hf : ∀ a, x = .ok a → Answers (f a) bytes (g a)) :
    Answers (ask x >>= f) bytes (x >>= g) :=
  @answers_bind _ _ _ _ _ _ _ [] _ (fun _ => rfl) hf

theorem answers_check_bind (h : x = .ok a) (hf : Answers (f a) bytes y) :
    Answers (ask x >>= f) bytes y := by
  intro rest
  rw [h]
  exact hf rest

end Answers

section Varints

variable {n fuel count value : Nat}

theorem reads_one : Reads (take e 1) [b] [b] := reads_take rfl

theorem varint_byte (n : Nat) : (UInt8.ofNat (n % 128) &&& 0x7f).toNat = n % 128 ∧
    (UInt8.ofNat (n % 128) &&& 0x80) = 0 ∧
    ((UInt8.ofNat (n % 128) ||| 0x80) &&& 0x7f).toNat = n % 128 ∧
    ((UInt8.ofNat (n % 128) ||| 0x80) &&& 0x80) ≠ 0 ∧
    (n < 16 → (UInt8.ofNat (n % 128) &&& 0xf0) = 0) := by
  have hall : ∀ k < 128, (UInt8.ofNat k &&& 0x7f).toNat = k ∧ (UInt8.ofNat k &&& 0x80) = 0 ∧
      ((UInt8.ofNat k ||| 0x80) &&& 0x7f).toNat = k ∧ ((UInt8.ofNat k ||| 0x80) &&& 0x80) ≠ 0 ∧
      (k < 16 → (UInt8.ofNat k &&& 0xf0) = 0) := by decide +kernel
  obtain ⟨h1, h2, h3, h4, h5⟩ := hall _ (Nat.mod_lt n (by decide))
  refine ⟨h1, h2, h3, h4, fun hn => h5 ?_⟩
  omega

theorem reads_varintLoop (hfuel : fuel + count = 5) (hn : n * 2 ^ (7 * count) < 2 ^ 32)
    (hpos : 0 < count → 0 < n) :
    Reads (varintLoop fuel count value) (varint n) (value + n * 2 ^ (7 * count)) := by
  induction fuel generalizing n count value with
  | zero =>
    obtain rfl : count = 5 := by omega
    have := hpos (by decide)
    omega
  | succ fuel ih =>
    obtain ⟨hlow, hlast, hlow', hmore, hover⟩ := varint_byte n
    rw [varint]
    by_cases hdiv : n / 128 = 0
    · have hsmall : n % 128 = n := Nat.mod_eq_of_lt (by omega)
      rw [if_pos hdiv]
      apply Reads.last (reads_one)
      apply Reads.ask_bind (a := ())
      · rw [reject_eq_ok, Bool.and_eq_false_imp]
        intro hcount
        obtain rfl := of_decide_eq_true hcount
        rw [decide_eq_false_iff_not, not_not]
        exact hover (by omega)
      · rw [headD_cons, hlow, hsmall, if_pos (hsmall ▸ hlast)]
        apply Reads.ask_bind (a := ())
        · rw [reject_eq_ok, Bool.and_eq_false_imp]
          intro hcount
          have hone := hpos (of_decide_eq_true hcount)
          rw [decide_eq_false_iff_not, not_lt, Nat.mul_comm count]
          calc 2 ^ (7 * count) = 1 * 2 ^ (7 * count) := (Nat.one_mul _).symm
            _ ≤ n * 2 ^ (7 * count) := Nat.mul_le_mul_right _ hone
            _ ≤ value + n * 2 ^ (7 * count) := Nat.le_add_left _ _
        · exact Reads.pure
    · have hnext : n / 128 * 2 ^ (7 * (count + 1)) ≤ n * 2 ^ (7 * count) := by
        calc n / 128 * 2 ^ (7 * (count + 1)) = n / 128 * 128 * 2 ^ (7 * count) := by
              rw [Nat.mul_add, Nat.add_comm, pow_add, Nat.mul_assoc]
              rfl
          _ ≤ n * 2 ^ (7 * count) := Nat.mul_le_mul_right _ (Nat.div_mul_le_self n 128)
      have hcount : count ≠ 4 := by
        rintro rfl
        omega
      have hread : Reads (varintLoop (fuel + 1) count value)
          ([UInt8.ofNat (n % 128) ||| 0x80] ++ varint (n / 128)) (value + n * 2 ^ (7 * count)) := by
        apply Reads.bind (reads_one)
        apply Reads.ask_bind (a := ())
        · simp [hcount]
        · rw [headD_cons, hlow', if_neg hmore]
          have hsum : value + n % 128 * 2 ^ (7 * count) + n / 128 * 2 ^ (7 * (count + 1)) =
              value + n * 2 ^ (7 * count) := by
            rw [Nat.mul_add 7 count 1, Nat.add_comm (7 * count), pow_add, ← Nat.mul_assoc, Nat.add_assoc,
              ← Nat.add_mul]
            congr 2
            omega
          rw [← hsum]
          exact ih (by omega) (hnext.trans_lt hn) (fun _ => Nat.pos_of_ne_zero hdiv)
      rw [if_neg hdiv]
      exact hread

theorem reads_decodeVarint (h : n < 2 ^ 32) : Reads decodeVarint (varint n) n := by
  have hread := @reads_varintLoop n 5 0 0 rfl (by rwa [Nat.mul_zero, pow_zero, Nat.mul_one])
    (fun h => absurd h (lt_irrefl 0))
  rwa [Nat.zero_add, Nat.mul_zero, pow_zero, Nat.mul_one] at hread

end Varints

section Paths

variable {path oldPath description : String} {limits : DiffPageLimits} {delta : FileDelta}

def BomFree (path : String) : Prop := path.toList.head? ≠ some byteOrderMark

instance : Decidable (BomFree path) := inferInstanceAs (Decidable (_ ≠ _))

theorem dropBom_eq_self : dropBom path = path ↔ BomFree path := by
  rw [dropBom, BomFree]
  cases hlist : path.toList with
  | nil => simp
  | cons c cs =>
    rw [head?_cons, ne_eq, Option.some_inj]
    dsimp only
    split_ifs with hc
    · refine ⟨fun h => ?_, fun h => absurd hc h⟩
      have hlen := congrArg (fun s : String => s.toList.length) h
      simp [hlist] at hlen
    · exact ⟨fun _ => hc, fun _ => rfl⟩

theorem decodePath_asBytes {read : String} : decodePath (asBytes path) description = .ok read ↔
    isSafeVaultPath (dropBom path) = true ∧ dropBom path = read := by
  simp only [decodePath, textDecode, fromUtf8_asBytes, Option.map_some, bind_eq_ok, orElse_eq_ok,
    Option.some_inj, exists_unit, reject_eq_ok, pure_eq_ok, Bool.not_eq_false']
  constructor
  · rintro ⟨_, rfl, hsafe, rfl⟩
    exact ⟨hsafe, rfl⟩
  · rintro ⟨hsafe, rfl⟩
    exact ⟨_, rfl, hsafe, rfl⟩

theorem length_utf16Units_le (cs : List Char) :
    (cs.flatMap fun c => if c.toNat < 0x10000 then [c.toNat]
      else [0xD800 + (c.toNat - 0x10000) / 0x400, 0xDC00 + (c.toNat - 0x10000) % 0x400]).length ≤
      (cs.flatMap String.utf8EncodeChar).length := by
  induction cs with
  | nil => exact Nat.le_refl 0
  | cons c cs ih =>
    have hone : (if c.toNat < 0x10000 then [c.toNat]
        else [0xD800 + (c.toNat - 0x10000) / 0x400, 0xDC00 + (c.toNat - 0x10000) % 0x400]).length ≤
        (String.utf8EncodeChar c).length := by
      obtain ⟨lead, rest, henc, -, -, -, hhigh⟩ := utf8EncodeChar_shape c
      rw [henc, length_cons]
      split_ifs with hsmall
      · exact Nat.succ_le_succ (Nat.zero_le _)
      · exact Nat.succ_le_succ (length_pos_iff.2 (hhigh (by omega)).2)
    rw [flatMap_cons, flatMap_cons, length_append, length_append]
    exact Nat.add_le_add hone ih

theorem utf16Length_le (path : String) : utf16Length path ≤ path.utf8ByteSize := by
  rw [← asBytes_length, asBytes_eq_flatMap]
  exact length_utf16Units_le path.toList

theorem isSafeVaultPath_of_valid (h : validatePath path = .ok ()) : isSafeVaultPath path = true := by
  have hunits := utf16Length_le path
  simp only [validatePath, bind_eq_ok, exists_unit, reject_eq_ok, Bool.or_eq_false_iff,
    decide_eq_false_iff_not, not_lt, any_eq_false, Bool.or_eq_true, decide_eq_true_eq, not_or] at h
  obtain ⟨⟨⟨hempty, hsize⟩, hslash⟩, ⟨hback, hcontrol⟩, hsegments⟩ := h
  have hne : path.toList.isEmpty = false := by
    cases hlist : path.toList with
    | nil =>
      rw [String.toList_eq_nil_iff.1 hlist] at hempty
      cases hempty
    | cons c cs => rfl
  have hchars : path.toList.all (fun c => !(c.toNat < 0x20 || c.toNat = 0x7f)) = true := by
    rw [all_eq_true]
    intro c hc
    have := hcontrol c hc
    simp only [TreeV2.isControl, Bool.or_eq_true, decide_eq_true_eq, Bool.and_eq_true, not_or] at this
    simp only [Bool.not_eq_true', Bool.or_eq_false_iff, decide_eq_false_iff_not]
    omega
  have hparts : (path.toList.splitOn '/').all (fun segment => !segment.isEmpty && segment ≠ ['.'] &&
      segment ≠ ['.', '.']) = true := by
    rw [all_eq_true]
    intro segment hsegment
    obtain ⟨⟨h1, h2⟩, h3⟩ := hsegments segment hsegment
    simp [h1, h2, h3]
  rw [maxPathBytes] at hsize
  simp only [isSafeVaultPath, hne, hchars, hparts, hback, Bool.not_false, Bool.and_true, Bool.and_eq_true,
    decide_eq_true_eq]
  exact ⟨⟨trivial, hunits.trans hsize⟩, hslash⟩

/-- The texts that the plugin makes of two paths are still two safe paths. -/
def Readable (path oldPath : String) : Prop :=
  isSafeVaultPath (dropBom path) = true ∧
    (oldPath ≠ "" → isSafeVaultPath (dropBom oldPath) = true ∧ dropBom oldPath ≠ dropBom path)

theorem readable_of_bomFree (hvalid : validateDelta delta = .ok ()) (hpath : BomFree delta.path)
    (hold : BomFree delta.oldPath) : Readable delta.path delta.oldPath := by
  rw [Readable, dropBom_eq_self.2 hpath, dropBom_eq_self.2 hold]
  refine ⟨isSafeVaultPath_of_valid (validateDelta_path hvalid), fun hne => ?_⟩
  cases delta with
  | renamed path oldPath =>
    obtain ⟨hvalidOld, hdiff⟩ := validateDelta_renamed hvalid
    exact ⟨isSafeVaultPath_of_valid hvalidOld, hdiff.symm⟩
  | added => exact absurd rfl hne
  | modified => exact absurd rfl hne
  | deleted => exact absurd rfl hne

theorem reads_decodePathBytes (hpos : 0 < path.utf8ByteSize) (hle : path.utf8ByteSize ≤ limits.maxPathBytes)
    (hsmall : path.utf8ByteSize < 2 ^ 32) :
    Reads (decodePathBytes limits description) (varint path.utf8ByteSize ++ asBytes path)
      (asBytes path) := by
  apply Reads.bind (reads_decodeVarint hsmall)
  apply Reads.ask_bind (a := ())
  · rw [reject_eq_ok]
    simp [hle, hpos.ne']
  · exact reads_take (asBytes_length path)

end Paths

section Records

variable {delta : FileDelta} {limits : DiffPageLimits} {fromRoot toRoot : FileHash} {n index seen : Nat}
  {bytes rest : Bytes} {previous : Option CursorKey}

theorem leBytes_add : leBytes (a + b) n = leBytes a n ++ leBytes b (n / 256 ^ a) := by
  induction a generalizing n with
  | zero => rw [Nat.zero_add, pow_zero, Nat.div_one, leBytes, nil_append]
  | succ a ih =>
    rw [Nat.succ_add, leBytes, leBytes, cons_append, ih, pow_succ', Nat.div_div_eq_div_mul]

theorem ofLe_leBytes_mod : ofLe (leBytes w n) = n % 256 ^ w := by
  induction w generalizing n with
  | zero => rw [leBytes, ofLe, pow_zero, Nat.mod_one]
  | succ w ih => rw [leBytes, ofLe, ih, UInt8.toNat_ofNat', pow_succ' 256 w, Nat.mod_mul (x := n)]

theorem readSafeU64_of_drop (h : bytes.drop offset = leBytes 8 n ++ rest)
    (hn : n ≤ maxSafeInteger) : readSafeU64 bytes offset description = .ok n := by
  rw [show 8 = 4 + 4 from rfl, leBytes_add, append_assoc] at h
  have hhigh := drop_add_of_drop h leBytes_length
  rw [maxSafeInteger] at hn
  have hvalue : n / 256 ^ 4 % 256 ^ 4 * 0x100000000 + n % 256 ^ 4 = n := by omega
  simp only [readSafeU64, h, hhigh, take_left' (leBytes_length : (leBytes 4 _).length = 4),
    ofLe_leBytes_mod, hvalue, bind_eq_ok, exists_unit, reject_eq_ok, decide_eq_false_iff_not, not_lt,
    pure_eq_ok, and_true]
  exact ⟨by omega, hn⟩

/-- Size and time are exact as JavaScript numbers. -/
def SafeNumbers (delta : FileDelta) : Prop :=
  ∀ content ∈ contentOf delta, content.2.1.toNat ≤ maxSafeInteger ∧ content.2.2.toNat ≤ maxSafeInteger

def deltaWith (path : String) (oldPath : Option String) : FileDelta → Delta
  | .added _ hash size mtimeMs => .added path (hashToHex hash) size.toNat mtimeMs.toNat
  | .modified _ hash size mtimeMs => .modified path (hashToHex hash) size.toNat mtimeMs.toNat
  | .deleted _ _ => .deleted path
  | .renamed _ _ hash size mtimeMs => .renamed path oldPath (hashToHex hash) size.toNat mtimeMs.toNat

def deltaOf (delta : FileDelta) : Delta := deltaWith delta.path (some delta.oldPath) delta

theorem reads_payload {hash : FileHash} (haction : action ≠ 3) (hsize : size.toNat ≤ maxSafeInteger)
    (hmtime : mtimeMs.toNat ≤ maxSafeInteger) :
    Reads (decodePayload index action path oldPath) (contentBytes hash size mtimeMs)
      (if action = 1 then .added path (hashToHex hash) size.toNat mtimeMs.toNat
        else if action = 2 then .modified path (hashToHex hash) size.toNat mtimeMs.toNat
        else .renamed path oldPath (hashToHex hash) size.toNat mtimeMs.toNat) := by
  have h0 : (contentBytes hash size mtimeMs).drop 0 = hash.val ++ _ := rfl
  have h32 := drop_add_of_drop h0 hash.property
  have h40 := drop_add_of_drop h32 leBytes_length
  rw [← append_nil (leBytes 8 mtimeMs.toNat)] at h40
  rw [decodePayload, if_neg haction, ← append_nil (contentBytes hash size mtimeMs)]
  apply Reads.bind (reads_take (length_contentBytes hash size mtimeMs))
  apply Reads.ask_bind (readSafeU64_of_drop h32 hsize)
  apply Reads.ask_bind (readSafeU64_of_drop h40 hmtime)
  rw [contentBytes, take_left' hash.property]
  exact Reads.pure

theorem reads_decodePayload (h : SafeNumbers delta) {path : String} {oldPath : Option String} :
    Reads (decodePayload index delta.action path oldPath) (encodeContent delta)
      (deltaWith path oldPath delta) := by
  cases delta with
  | deleted => exact Reads.pure
  | added p hash size mtimeMs =>
    obtain ⟨hsize, hmtime⟩ := h (hash, size, mtimeMs) rfl
    exact reads_payload (by simp [FileDelta.action]) hsize hmtime
  | modified p hash size mtimeMs =>
    obtain ⟨hsize, hmtime⟩ := h (hash, size, mtimeMs) rfl
    exact reads_payload (by simp [FileDelta.action]) hsize hmtime
  | renamed p o hash size mtimeMs =>
    obtain ⟨hsize, hmtime⟩ := h (hash, size, mtimeMs) rfl
    exact reads_payload (by simp [FileDelta.action]) hsize hmtime

end Records

section Order

variable {left right : Bytes}

theorem compareBytes_eq_zero : compareBytes left right = 0 ↔ left = right := by
  induction left, right using compareBytes.induct with
  | case1 right => simp [compareBytes, eq_comm]
  | case2 left hne =>
    cases left with
    | nil => exact absurd rfl hne
    | cons a left =>
      rw [compareBytes.eq_2 _ hne]
      simp
      omega
  | case3 a left b right hne =>
    have := UInt8.toNat_inj.not.2 hne
    rw [compareBytes, if_pos hne]
    simp [hne]
    omega
  | case4 a left b right heq ih =>
    rw [not_not] at heq
    rw [compareBytes, if_neg (by simpa using heq), ih, heq, List.cons.injEq, and_iff_right rfl]

theorem compareBytes_neg : compareBytes left right < 0 ↔ left.map UInt8.toNat < right.map UInt8.toNat := by
  induction left, right using compareBytes.induct with
  | case1 right =>
    cases right with
    | nil => simp [compareBytes]
    | cons b right =>
      rw [compareBytes, map_nil, map_cons]
      exact iff_of_true (by simp; omega) (nil_lt_cons _ _)
  | case2 left hne =>
    cases left with
    | nil => exact absurd rfl hne
    | cons a left =>
      rw [compareBytes.eq_2 _ hne]
      simp
      omega
  | case3 a left b right hne =>
    have := UInt8.toNat_inj.not.2 hne
    rw [compareBytes, if_pos hne, map_cons, map_cons, cons_lt_cons_iff]
    omega
  | case4 a left b right heq ih =>
    rw [not_not] at heq
    rw [compareBytes, if_neg (by simpa using heq), ih, heq, map_cons, map_cons, cons_lt_cons_iff]
    simp

end Order

section Pages

variable {delta : FileDelta} {limits : DiffPageLimits} {fromRoot toRoot : FileHash} {index seen : Nat}
  {previous : Option CursorKey} {taken left : List FileDelta} {rest : Bytes}

def keyBytes (fromRoot toRoot : FileHash) (delta : FileDelta) : CursorKey :=
  ⟨fromRoot.val, toRoot.val, asBytes delta.path, delta.action, asBytes delta.oldPath⟩

def pathSize (delta : FileDelta) : Nat := (asBytes delta.path).length + (asBytes delta.oldPath).length

/-- What is left of reading a record once its bytes are known. -/
def readRename (index : Nat) (delta : FileDelta) (path : String) :
    Except CodecError (Bytes × Option String) :=
  if delta.action = 4 then do
    let oldPath ← decodePath (asBytes delta.oldPath) s!"diff record {index} rename source"
    reject (oldPath = path) s!"diff record {index} renames a path onto itself"
    return (asBytes delta.oldPath, some oldPath)
  else .ok ([], none)

def readRecord (fromRoot toRoot : FileHash) (index seen : Nat) (delta : FileDelta) :
    Except CodecError (Delta × CursorKey × Nat) := do
  let path ← decodePath (asBytes delta.path) s!"diff record {index} path"
  let (_, oldPath) ← readRename index delta path
  return (deltaWith path oldPath delta, keyBytes fromRoot toRoot delta, seen + pathSize delta)

/-- The delta with the texts that the plugin makes of its paths. -/
def readAs (delta : FileDelta) : Delta := deltaWith (dropBom delta.path) (some (dropBom delta.oldPath)) delta

theorem readRename_eq_ok (hvalid : validateDelta delta = .ok ())
    (h : readRename index delta path = .ok r) : r.1 = asBytes delta.oldPath := by
  rw [readRename] at h
  split_ifs at h with haction
  · simp only [bind_eq_ok, exists_unit, pure_eq_ok] at h
    obtain ⟨_, -, -, rfl⟩ := h
    rfl
  · cases h
    have hsize := not_not.1 (mt (action_eq_four hvalid).2 haction)
    rw [String.utf8ByteSize_eq_zero_iff.1 hsize]
    rfl

theorem readRecord_eq_ok (hvalid : validateDelta delta = .ok ()) {r : Delta × CursorKey × Nat} :
    readRecord fromRoot toRoot index seen delta = .ok r ↔ Readable delta.path delta.oldPath ∧
      r = (readAs delta, keyBytes fromRoot toRoot delta, seen + pathSize delta) := by
  have hcase : delta.action = 4 ∧ delta.oldPath ≠ "" ∨ delta.action ≠ 4 ∧ delta.oldPath = "" ∧
      ∀ path o o', deltaWith path o delta = deltaWith path o' delta := by
    cases delta with
    | renamed path oldPath =>
      refine .inl ⟨rfl, fun hempty => ?_⟩
      have hpos := (validatePath_size (validateDelta_renamed hvalid).1).1
      rw [show oldPath = "" from hempty] at hpos
      exact absurd hpos (lt_irrefl 0)
    | added => exact .inr ⟨by simp [FileDelta.action], rfl, fun _ _ _ => rfl⟩
    | modified => exact .inr ⟨by simp [FileDelta.action], rfl, fun _ _ _ => rfl⟩
    | deleted => exact .inr ⟨by simp [FileDelta.action], rfl, fun _ _ _ => rfl⟩
  simp only [readRecord, bind_eq_ok, decodePath_asBytes, pure_eq_ok, Readable, readRename]
  rcases hcase with ⟨haction, hold⟩ | ⟨haction, hold, hsame⟩
  · simp only [if_pos haction, bind_eq_ok, decodePath_asBytes, exists_unit, reject_eq_ok,
      decide_eq_false_iff_not, pure_eq_ok]
    constructor
    · rintro ⟨_, ⟨hsafe, rfl⟩, _, ⟨_, ⟨hsafe', rfl⟩, hne, rfl⟩, rfl⟩
      exact ⟨⟨hsafe, fun _ => ⟨hsafe', hne⟩⟩, rfl⟩
    · rintro ⟨⟨hsafe, hrename⟩, rfl⟩
      obtain ⟨hsafe', hne⟩ := hrename hold
      exact ⟨_, ⟨hsafe, rfl⟩, _, ⟨_, ⟨hsafe', rfl⟩, hne, rfl⟩, rfl⟩
  · simp only [if_neg haction, Except.ok.injEq]
    constructor
    · rintro ⟨_, ⟨hsafe, rfl⟩, _, rfl, rfl⟩
      refine ⟨⟨hsafe, fun hne => absurd hold hne⟩, ?_⟩
      rw [readAs, hsame _ none]
    · rintro ⟨⟨hsafe, -⟩, rfl⟩
      refine ⟨_, ⟨hsafe, rfl⟩, _, rfl, ?_⟩
      rw [readAs, hsame _ none]

theorem requireOrder_eq_ok (h : ∀ p ∈ previous, compareBytes p.pathBytes key.pathBytes < 0) :
    requireOrder previous key = .ok () := by
  cases previous with
  | none => rfl
  | some p =>
    have hneg := h p rfl
    simp only [requireOrder, compareKeys, bind_eq_ok, exists_unit, reject_eq_ok, decide_eq_false_iff_not,
      if_pos hneg.ne, not_le]
    exact ⟨hneg.ne, hneg⟩

theorem answers_decodeRename (hvalid : validateDelta delta = .ok ())
    (hlimit : limits.maxPathBytes = maxPathBytes) :
    Answers (decodeRename limits index delta.action path)
      (if delta.action = 4 then varint delta.oldPath.utf8ByteSize ++ asBytes delta.oldPath else [])
      (readRename index delta path) := by
  rw [decodeRename, readRename]
  split_ifs with haction
  · have hle := oldPath_size_le hvalid
    have hpos := Nat.pos_of_ne_zero ((action_eq_four hvalid).1 haction)
    have hread := @reads_decodePathBytes delta.oldPath s!"diff record {index} rename source" limits
      hpos (hlimit ▸ hle) (hle.trans_lt (by decide))
    rw [← append_nil (varint _ ++ asBytes _)]
    apply answers_reads_bind hread
    apply answers_ask_bind
    intro oldPath _
    apply answers_ask_bind
    intro _ _
    exact fun _ => rfl
  · exact fun _ => rfl

theorem answers_decodeRecord (hvalid : validateDelta delta = .ok ()) (hnumbers : SafeNumbers delta)
    (hlimit : limits.maxPathBytes = maxPathBytes) (hmax : limits.maxBytes ≤ maxSafeInteger)
    (hseen : seen + pathSize delta ≤ limits.maxBytes)
    (horder : ∀ p ∈ previous, compareBytes p.pathBytes (asBytes delta.path) < 0) :
    Answers (decodeRecord limits fromRoot.val toRoot.val index seen previous) (recordBytes delta)
      (readRecord fromRoot toRoot index seen delta) := by
  obtain ⟨hpos, hle⟩ := validatePath_size (validateDelta_path hvalid)
  obtain ⟨hone, hfour⟩ := action_bounds delta
  have hread := @reads_decodePathBytes delta.path s!"diff record {index} path" limits
    hpos (hlimit ▸ hle) (hle.trans_lt (by decide))
  have hbytes : recordBytes delta = [delta.action] ++ ((varint delta.path.utf8ByteSize ++ asBytes delta.path) ++
      ((if delta.action = 4 then varint delta.oldPath.utf8ByteSize ++ asBytes delta.oldPath else []) ++
        (encodeContent delta ++ []))) := by
    rw [recordBytes, append_nil, append_assoc]
  rw [hbytes]
  apply answers_reads_bind (reads_one)
  apply answers_check_bind (a := ())
  · rw [reject_eq_ok, Bool.or_eq_false_iff, decide_eq_false_iff_not, decide_eq_false_iff_not]
    exact ⟨UInt8.not_lt.2 hone, UInt8.not_lt.2 hfour⟩
  apply answers_reads_bind hread
  apply answers_ask_bind
  intro path _
  apply answers_bind (answers_decodeRename hvalid hlimit)
  rintro ⟨oldBytes, oldPath⟩ hrename
  obtain rfl : oldBytes = asBytes delta.oldPath := readRename_eq_ok hvalid hrename
  apply answers_check_bind (a := seen + pathSize delta)
  · simp only [checkedAdd, bind_eq_ok, exists_unit, reject_eq_ok, Bool.or_eq_false_iff,
      decide_eq_false_iff_not, not_lt]
    exact ⟨⟨hseen.trans hmax, hseen⟩, rfl⟩
  apply answers_check_bind (a := ()) (requireOrder_eq_ok horder)
  apply answers_reads_bind (reads_decodePayload hnumbers)
  exact fun _ => rfl

theorem decodeRecords_run {r : (List Delta × Option CursorKey) × Bytes}
    (hlimit : limits.maxPathBytes = maxPathBytes) (hmax : limits.maxBytes ≤ maxSafeInteger)
    (hvalid : ∀ d ∈ taken, validateDelta d = .ok ()) (hnumbers : ∀ d ∈ taken, SafeNumbers d)
    (hseen : seen + (taken.map pathSize).sum ≤ limits.maxBytes)
    (hpaths : Sorted (fun d => byteOrder d.path) taken)
    (horder : ∀ p ∈ previous, ∀ d ∈ taken, compareBytes p.pathBytes (asBytes d.path) < 0) :
    decodeRecords limits fromRoot.val toRoot.val taken.length index seen previous
      (taken.flatMap recordBytes ++ rest) = .ok r ↔
      (∀ d ∈ taken, Readable d.path d.oldPath) ∧
        r = ((taken.map readAs, (taken.getLast?.map (keyBytes fromRoot toRoot)).or previous), rest) := by
  induction taken generalizing index seen previous r with
  | nil =>
    change Except.ok (([], previous), rest) = _ ↔ _
    rw [Except.ok.injEq, eq_comm]
    exact (and_iff_right fun _ hd => absurd hd not_mem_nil).symm
  | cons d taken ih =>
    rw [map_cons, sum_cons] at hseen
    obtain ⟨hfirst, hpaths⟩ := pairwise_cons.1 hpaths
    have hd := hvalid d mem_cons_self
    have hrecord : decodeRecord limits fromRoot.val toRoot.val index seen previous
        (recordBytes d ++ (taken.flatMap recordBytes ++ rest)) =
        (readRecord fromRoot toRoot index seen d).map fun a => (a, taken.flatMap recordBytes ++ rest) :=
      answers_decodeRecord hd (hnumbers d mem_cons_self) hlimit hmax
        ((Nat.add_le_add_left (Nat.le_add_right _ _) _).trans hseen)
        (fun p hp => horder p hp d mem_cons_self) _
    have hafter : ∀ p ∈ some (keyBytes fromRoot toRoot d), ∀ d' ∈ taken,
        compareBytes p.pathBytes (asBytes d'.path) < 0 := by
      rintro _ ⟨⟩ d' hd'
      exact compareBytes_neg.2 (hfirst d' hd')
    have hnext := fun r => @ih (index + 1) (seen + pathSize d) (some (keyBytes fromRoot toRoot d)) r
      (fun d hd => hvalid d (mem_cons_of_mem _ hd)) (fun d hd => hnumbers d (mem_cons_of_mem _ hd))
      (by omega) hpaths hafter
    have hlast : ((d :: taken).getLast?.map (keyBytes fromRoot toRoot)).or previous =
        (taken.getLast?.map (keyBytes fromRoot toRoot)).or (some (keyBytes fromRoot toRoot d)) := by
      rw [getLast?_cons]
      cases taken.getLast? <;> rfl
    obtain ⟨⟨ds, last⟩, rest'⟩ := r
    rw [flatMap_cons, append_assoc, length_cons, decodeRecords, bind_run, hrecord,
      forall_mem_cons, hlast]
    constructor
    · rintro ⟨_, mid, hok, h⟩
      obtain ⟨_, hr, heq⟩ := map_eq_ok.1 hok
      obtain ⟨hreadable, rfl⟩ := (readRecord_eq_ok hd).1 hr
      cases heq
      obtain ⟨⟨ds', last'⟩, mid', hrun, h⟩ := bind_run.1 h
      obtain ⟨hall, heq⟩ := (hnext _).1 hrun
      obtain ⟨h, rfl⟩ := pure_run.1 h
      cases heq
      cases h
      exact ⟨⟨hreadable, hall⟩, rfl⟩
    · rintro ⟨⟨hreadable, hall⟩, heq⟩
      cases heq
      refine ⟨_, _, map_eq_ok.2 ⟨_, (readRecord_eq_ok hd).2 ⟨hreadable, rfl⟩, rfl⟩, ?_⟩
      exact bind_run.2 ⟨_, _, (hnext _).2 ⟨hall, rfl⟩, pure_run.2 ⟨rfl, rfl⟩⟩

theorem pathSize_le (delta : FileDelta) : pathSize delta ≤ (recordBytes delta).length := by
  rw [pathSize, recordBytes]
  cases delta with
  | renamed path oldPath =>
    simp [FileDelta.action, FileDelta.oldPath]
    omega
  | added => simp [FileDelta.oldPath, FileDelta.action, asBytes]; omega
  | modified => simp [FileDelta.oldPath, FileDelta.action, asBytes]; omega
  | deleted => simp [FileDelta.oldPath, FileDelta.action, asBytes]; omega

theorem sum_pathSize_le : (taken.map pathSize).sum ≤ (taken.flatMap recordBytes).length := by
  induction taken with
  | nil => exact Nat.le_refl 0
  | cons d taken ih =>
    rw [map_cons, sum_cons, flatMap_cons, length_append]
    exact Nat.add_le_add (pathSize_le d) ih

theorem requireEqualBytes_self : requireEqualBytes bytes bytes description = .ok () := by
  rw [requireEqualBytes, compareBytes_eq_zero.2 rfl]
  rfl

theorem checkOldPath_eq_ok {path oldPath : String} : checkOldPath path (asBytes oldPath) = .ok () ↔
      (oldPath ≠ "" → isSafeVaultPath (dropBom oldPath) = true ∧ dropBom oldPath ≠ path) := by
  have hempty : asBytes oldPath = [] ↔ oldPath = "" := by
    rw [← asBytes_inj]
    rfl
  rw [checkOldPath]
  split_ifs with h
  · exact iff_of_true rfl fun hne => absurd (hempty.1 h) hne
  · simp only [bind_eq_ok, decodePath_asBytes, reject_eq_ok, decide_eq_false_iff_not]
    constructor
    · rintro ⟨_, ⟨hsafe, rfl⟩, hne⟩ -
      exact ⟨hsafe, hne⟩
    · intro hall
      obtain ⟨hsafe, hne⟩ := hall (mt hempty.2 h)
      exact ⟨_, ⟨hsafe, rfl⟩, hne⟩

theorem getD_of_drop {bytes rest : Bytes} (h : bytes.drop offset = b :: rest) :
    bytes.getD offset 0 = b := by
  rw [getD_eq_getElem?_getD, getElem?_of_drop h, Option.getD_some]

theorem take_of_drop {bytes more rest : Bytes} (h : bytes.drop offset = more ++ rest)
    (hn : more.length = n) : (bytes.drop offset).take n = more := by
  rw [h]
  exact take_left' hn

theorem decodeCursor_run (hvalid : validateDelta delta = .ok ())
    (hlimit : limits.maxPathBytes = maxPathBytes) {key : CursorKey} :
    decodeCursor (cursorBytes fromRoot toRoot (keyOf delta)) limits = .ok key ↔
      Readable delta.path delta.oldPath ∧ key = keyBytes fromRoot toRoot delta := by
  obtain ⟨hpos, hle⟩ := validatePath_size (validateDelta_path hvalid)
  obtain ⟨hone, hfour⟩ := action_bounds delta
  have hold := oldPath_size_le hvalid
  have haction := action_eq_four hvalid
  have hsize : (cursorBytes fromRoot toRoot (keyOf delta)).length =
      74 + delta.path.utf8ByteSize + delta.oldPath.utf8ByteSize := cursorBytes_length
  have hsmall : maxPathBytes < 256 ^ 2 := by decide
  generalize hbytes : cursorBytes fromRoot toRoot (keyOf delta) = bytes at hsize
  have h0 : bytes.drop 0 = cursorMagic ++ _ := hbytes.symm
  have h4 := drop_add_of_drop (n := 4) h0 (by decide)
  have h5 := drop_add_of_drop (n := 1) h4 rfl
  have h37 := drop_add_of_drop h5 fromRoot.property
  have h69 := drop_add_of_drop h37 toRoot.property
  have h70 := drop_add_of_drop (n := 1) h69 rfl
  have h72 := drop_add_of_drop h70 leBytes_length
  have h74 := drop_add_of_drop h72 leBytes_length
  have hrest := drop_add_of_drop h74 (asBytes_length delta.path)
  have hpathLen : ofLe ((bytes.drop 70).take 2) = delta.path.utf8ByteSize := by
    rw [take_of_drop h70 leBytes_length]
    exact ofLe_leBytes (hle.trans_lt hsmall)
  have holdLen : ofLe ((bytes.drop 72).take 2) = delta.oldPath.utf8ByteSize := by
    rw [take_of_drop h72 leBytes_length]
    exact ofLe_leBytes (hold.trans_lt hsmall)
  have hpath : (bytes.drop 74).take delta.path.utf8ByteSize = asBytes delta.path :=
    take_of_drop h74 (asBytes_length _)
  have holdPath : (bytes.drop (74 + delta.path.utf8ByteSize)).take delta.oldPath.utf8ByteSize =
      asBytes delta.oldPath := by
    rw [hrest]
    exact take_of_length_le (asBytes_length _).le
  have hkind : decide (delta.action = 4) = decide (0 < delta.oldPath.utf8ByteSize) := by
    rw [decide_eq_decide, haction, Nat.pos_iff_ne_zero]
  have hcap : 74 + delta.path.utf8ByteSize + delta.oldPath.utf8ByteSize ≤ hardMaxCursorBytes := by
    rw [hardMaxCursorBytes, hardMaxPathBytes]
    rw [maxPathBytes] at hle hold
    omega
  have hsafe : hardMaxCursorBytes ≤ maxSafeInteger := by decide
  simp only [decodeCursor, checkedAdd, hsize, hpathLen, holdLen, getD_of_drop h4, getD_of_drop h69, hpath,
    take_of_drop h5 fromRoot.property, take_of_drop h37 toRoot.property, hlimit, bind_eq_ok,
    exists_unit, reject_eq_ok, pure_eq_ok, decodePath_asBytes, Readable]
  constructor
  · rintro ⟨-, -, -, -, -, -, _, ⟨-, rfl⟩, _, ⟨-, rfl⟩, -, _, ⟨hread, rfl⟩, hrename, rfl⟩
    rw [holdPath] at hrename ⊢
    exact ⟨⟨hread, checkOldPath_eq_ok.1 hrename⟩, rfl⟩
  · rintro ⟨⟨hread, hrename⟩, rfl⟩
    refine ⟨?_, ?_, ?_, ?_, ?_, ?_, _, ⟨?_, rfl⟩, _, ⟨?_, rfl⟩, ?_, _, ⟨hread, rfl⟩, ?_, ?_⟩
    · simp only [Bool.or_eq_false_iff, decide_eq_false_iff_not]
      omega
    · have hmagic : bytes.take 4 = cursorMagic := take_of_drop h0 (by decide)
      simp [hmagic]
    · simp
    · rw [Bool.or_eq_false_iff, decide_eq_false_iff_not, decide_eq_false_iff_not]
      exact ⟨UInt8.not_lt.2 hone, UInt8.not_lt.2 hfour⟩
    · simp only [Bool.or_eq_false_iff, decide_eq_false_iff_not]
      omega
    · exact decide_eq_false (not_not.2 hkind)
    · simp only [Bool.or_eq_false_iff, decide_eq_false_iff_not]
      omega
    · simp only [Bool.or_eq_false_iff, decide_eq_false_iff_not]
      omega
    · simp
    · rw [holdPath]
      exact checkOldPath_eq_ok.2 hrename
    · rw [holdPath]
      rfl

theorem fillPage_count_le {count} (hcount : count ≤ request.maxRecords)
    (h : fillPage fromRoot toRoot request deltas count size cursor = .ok r) :
    r.1 ≤ request.maxRecords := by
  induction deltas generalizing count size cursor with
  | nil =>
    cases h
    exact hcount
  | cons d deltas ih =>
    rw [fillPage] at h
    by_cases hfull : request.maxRecords ≤ count
    · rw [if_pos hfull] at h
      cases h
      exact hcount
    · rw [if_neg hfull] at h
      simp only [bind_eq_ok] at h
      obtain ⟨_, -, _, -, h⟩ := h
      split_ifs at h
      · cases h
        exact hcount
      · exact ih (Nat.lt_of_not_le hfull) h

theorem recordCount_le (h : encodePage fromRoot toRoot deltas request = .ok page) :
    page.recordCount ≤ request.maxRecords := by
  simp only [encodePage, bind_eq_ok, exists_unit, pure_eq_ok] at h
  obtain ⟨-, -, -, start, -, ⟨count, _, _⟩, hfill, _, -, -, -, _, -, -, rfl⟩ := h
  exact fillPage_count_le (Nat.zero_le _) hfill

theorem all_zero_eq_false : toRoot.val.all (· = 0) = false ↔ toRoot ≠ zeroRoot := by
  rw [← Bool.not_eq_true, not_iff_not, all_eq_true]
  constructor
  · intro hall
    apply Subtype.ext
    rw [zeroRoot, eq_replicate_iff]
    exact ⟨toRoot.property, fun b hb => of_decide_eq_true (hall b hb)⟩
  · rintro rfl b hb
    exact decide_eq_true (eq_of_mem_replicate hb)

def issued (fromRoot toRoot : FileHash) (before : List FileDelta) : Option Bytes :=
  before.getLast?.map fun delta => cursorBytes fromRoot toRoot (keyOf delta)

theorem decodePrevious_run (hvalid : ∀ d ∈ before, validateDelta d = .ok ())
    (hlimit : limits.maxPathBytes = maxPathBytes) :
    decodePrevious (issued fromRoot toRoot before) fromRoot.val toRoot.val limits = .ok r ↔
      (∀ d ∈ before.getLast?, Readable d.path d.oldPath) ∧
        r = before.getLast?.map (keyBytes fromRoot toRoot) := by
  rw [issued]
  cases hlast : before.getLast? with
  | none =>
    change Except.ok none = Except.ok r ↔ _
    rw [Except.ok.injEq, eq_comm]
    exact (and_iff_right nofun).symm
  | some d =>
    have hd := hvalid d (mem_of_getLast? hlast)
    simp only [Option.map_some, decodePrevious, bind_eq_ok, exists_unit, decodeCursor_run hd hlimit,
      pure_eq_ok, Option.mem_some_iff, forall_eq']
    constructor
    · rintro ⟨_, ⟨hread, rfl⟩, -, -, rfl⟩
      exact ⟨hread, rfl⟩
    · rintro ⟨hread, rfl⟩
      exact ⟨_, ⟨hread, rfl⟩, requireEqualBytes_self, requireEqualBytes_self, rfl⟩

theorem compareKeys_self : compareKeys key key = 0 := by
  simp [compareKeys, compareBytes_eq_zero.2]

theorem checkNext_eq_ok (hvalid : ∀ d ∈ taken, validateDelta d = .ok ())
    (hlimit : limits.maxPathBytes = maxPathBytes) (hread : ∀ d ∈ taken, Readable d.path d.oldPath)
    (hprogress : taken = [] → left = []) :
    checkNext (if left = [] then none else issued fromRoot toRoot (before ++ taken)) fromRoot.val toRoot.val
      ((taken.getLast?.map (keyBytes fromRoot toRoot)).or previous) limits = .ok () := by
  split_ifs with hleft
  · rfl
  · have hne : taken ≠ [] := fun hnil => hleft (hprogress hnil)
    have hlast := getLast?_eq_some_getLast hne
    have hmem := getLast_mem hne
    rw [issued, getLast?_append, hlast]
    simp only [Option.some_or, Option.map_some, checkNext, bind_eq_ok, exists_unit,
      decodeCursor_run (hvalid _ hmem) hlimit, reject_eq_ok]
    refine ⟨_, ⟨hread _ hmem, rfl⟩, requireEqualBytes_self, requireEqualBytes_self, ?_⟩
    simp [compareKeys_self]

theorem nextCursor_eq (hprogress : taken = [] → left = []) :
    (if (cursorAfter fromRoot toRoot [] taken left).length = 0 then none
      else some (cursorAfter fromRoot toRoot [] taken left)) =
        if left = [] then none else issued fromRoot toRoot (before ++ taken) := by
  have hempty := @cursorAfter_isEmpty fromRoot toRoot taken left hprogress
  have hempty : (cursorAfter fromRoot toRoot [] taken left).length = 0 ↔ left = [] := by
    rw [length_eq_zero_iff, ← List.isEmpty_iff, ← List.isEmpty_iff, hempty]
  split_ifs with h hleft hleft
  · rfl
  · exact absurd (hempty.1 h) hleft
  · exact absurd (hempty.2 hleft) h
  · have hne : taken ≠ [] := fun hnil => hleft (hprogress hnil)
    rw [issued, getLast?_append, cursorAfter, getLast?_eq_some_getLast hne]
    dsimp only [Option.some_or, Option.map_some]
    rw [cursorPast, if_neg (by simpa using hleft)]

theorem length_cursorAfter_le (hvalid : ∀ d ∈ taken, validateDelta d = .ok ()) :
    (cursorAfter fromRoot toRoot [] taken left).length ≤ hardMaxCursorBytes := by
  rw [cursorAfter]
  cases hlast : taken.getLast? with
  | none => exact Nat.zero_le _
  | some d => exact length_cursorPast_le (hvalid d (mem_of_getLast? hlast))

theorem decodeDiffPage_run {before : List FileDelta} {fromHex : String} {toHex : Option String} {page : Page}
    (hbounded : boundedLimits limits = true) (hlimit : limits.maxPathBytes = maxPathBytes)
    (hfrom : toLowerCase fromHex = hexEncode fromRoot.val)
    (hto : ∀ hex ∈ toHex, toLowerCase hex = hexEncode toRoot.val)
    (hvalid : ∀ d ∈ before ++ taken, validateDelta d = .ok ())
    (hpaths : Sorted (fun d => byteOrder d.path) (before ++ taken)) (hnumbers : ∀ d ∈ taken, SafeNumbers d)
    (hprogress : taken = [] → left = []) (hcount : taken.length ≤ limits.maxRecords)
    (hsize : pageHeaderBytes + (cursorAfter fromRoot toRoot [] taken left).length +
      (taken.flatMap recordBytes).length ≤ limits.maxBytes) :
    decodeDiffPage (pageBytes fromRoot toRoot taken.length (cursorAfter fromRoot toRoot [] taken left)
      (taken.flatMap recordBytes)) fromHex toHex (issued fromRoot toRoot before) limits = .ok page ↔
      toRoot ≠ zeroRoot ∧ (∀ d ∈ before.getLast?, Readable d.path d.oldPath) ∧
        (∀ d ∈ taken, Readable d.path d.oldPath) ∧
        page = ⟨hexEncode fromRoot.val, hexEncode toRoot.val, taken.map readAs,
          if left = [] then none else issued fromRoot toRoot (before ++ taken),
          pageHeaderBytes + (cursorAfter fromRoot toRoot [] taken left).length +
            (taken.flatMap recordBytes).length⟩ := by
  have hbefore : ∀ d ∈ before, validateDelta d = .ok () := fun d hd =>
    hvalid d (mem_append_left _ hd)
  have htaken : ∀ d ∈ taken, validateDelta d = .ok () := fun d hd =>
    hvalid d (mem_append_right _ hd)
  obtain ⟨-, hsorted, hcross⟩ := pairwise_append.1 hpaths
  have hnext : (if (cursorAfter fromRoot toRoot [] taken left).length = 0 then none
      else some (cursorAfter fromRoot toRoot [] taken left)) =
        if left = [] then none else issued fromRoot toRoot (before ++ taken) := nextCursor_eq hprogress
  have hcap := @length_cursorAfter_le fromRoot toRoot _ left htaken
  have hlen := @length_pageBytes fromRoot toRoot taken.length (cursorAfter fromRoot toRoot [] taken left)
    (taken.flatMap recordBytes)
  generalize hcursor : cursorAfter fromRoot toRoot [] taken left = cursor at *
  generalize hbody : pageBytes fromRoot toRoot taken.length cursor (taken.flatMap recordBytes) = body at *
  have h0 : body.drop 0 = pageMagic ++ _ := hbody.symm
  have h4 := drop_add_of_drop (n := 4) h0 (by decide)
  have h36 := drop_add_of_drop h4 fromRoot.property
  have h68 := drop_add_of_drop h36 toRoot.property
  have h72 := drop_add_of_drop h68 leBytes_length
  have h74 := drop_add_of_drop h72 leBytes_length
  have hrest := drop_add_of_drop h74 rfl
  have hbounds := hbounded
  simp only [boundedLimits, Bool.and_eq_true, decide_eq_true_eq] at hbounds
  obtain ⟨⟨⟨⟨⟨-, hbytes⟩, -⟩, hrecords⟩, -⟩, -⟩ := hbounds
  have hmax : limits.maxBytes ≤ maxSafeInteger := hbytes.trans (by decide)
  have hcountRead : ofLe ((body.drop 68).take 4) = taken.length := by
    rw [take_of_drop h68 leBytes_length]
    exact ofLe_leBytes ((hcount.trans hrecords).trans_lt (by decide))
  have hnextRead : ofLe ((body.drop 72).take 2) = cursor.length := by
    rw [take_of_drop h72 leBytes_length]
    exact ofLe_leBytes (hcap.trans_lt (by decide))
  have hrun := fun previous r (horder : ∀ p ∈ previous, ∀ d ∈ taken,
      compareBytes p.pathBytes (asBytes d.path) < 0) =>
    @decodeRecords_run limits fromRoot toRoot 0 0 previous taken [] r hlimit hmax htaken hnumbers (by
      have := @sum_pathSize_le taken
      omega) hsorted horder
  have horder : ∀ p ∈ before.getLast?.map (keyBytes fromRoot toRoot), ∀ d ∈ taken,
      compareBytes p.pathBytes (asBytes d.path) < 0 := by
    intro p hp d hd
    obtain ⟨b, hb, rfl⟩ := Option.mem_map.1 hp
    exact compareBytes_neg.2 (hcross b (mem_of_getLast? hb) d hd)
  have hnextBytes : (body.drop pageHeaderBytes).take cursor.length = cursor := take_of_drop h74 rfl
  have hfirst : body.drop (pageHeaderBytes + cursor.length) = taken.flatMap recordBytes ++ [] := by
    rw [append_nil]
    exact hrest
  simp only [decodeDiffPage, validateLimits, checkedAdd, hlen, take_of_drop h4 fromRoot.property,
    take_of_drop h36 toRoot.property, hcountRead, hnextRead, hbounded, bind_eq_ok, exists_unit, reject_eq_ok,
    pure_eq_ok, decodePrevious_run hbefore hlimit, all_zero_eq_false, hnextBytes, hnext]
  constructor
  · rintro ⟨-, -, -, -, -, -, hzero, -, -, _, ⟨-, rfl⟩, _, ⟨hprevious, rfl⟩, ⟨⟨ds, last⟩, rest⟩, hdecode, -, -,
      -, rfl⟩
    rw [hfirst] at hdecode
    obtain ⟨hread, heq⟩ := (hrun _ _ horder).1 hdecode
    cases heq
    exact ⟨hzero, hprevious, hread, rfl⟩
  · rintro ⟨hzero, hprevious, hread, rfl⟩
    have hdecode := (hrun _ _ horder).2 ⟨hread, rfl⟩
    rw [← hfirst] at hdecode
    refine ⟨rfl, ?_, ?_, ?_, ?_, ?_, hzero, ?_, ?_, _, ⟨?_, rfl⟩, _, ⟨hprevious, rfl⟩, _, hdecode, ?_, ?_,
      checkNext_eq_ok htaken hlimit hread hprogress, rfl⟩
    · simpa using hsize
    · rw [decide_eq_false_iff_not]
      omega
    · have hmagic : body.take 4 = pageMagic := take_of_drop h0 (by decide)
      simp [hmagic]
    · simp [hfrom]
    · cases toHex with
      | none => rfl
      | some hex => simp [hto hex rfl]
    · simpa using hcount
    · simpa using hcap
    · simp only [Bool.or_eq_false_iff, decide_eq_false_iff_not]
      omega
    · simp
    · rw [Bool.and_eq_false_imp]
      intro hsome
      rw [decide_eq_false_iff_not, length_eq_zero_iff]
      intro hnil
      rw [if_pos (hprogress hnil)] at hsome
      cases hsome

end Pages

end Obsetync.DiffPage.Plugin

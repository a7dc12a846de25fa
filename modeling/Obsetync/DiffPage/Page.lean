import Obsetync.DiffPage.Codec

namespace Obsetync.DiffPage
open Wire Fallible Keyed List

/-- The cursor a page would carry that ends with `delta`. -/
def candidateCursor (fromRoot toRoot : FileHash) (delta : FileDelta) (rest : List FileDelta) :
    Except CodecError Bytes :=
  if rest.isEmpty then .ok [] else encodeCursor fromRoot toRoot delta

/-- The records that fit: their number, their bytes and the cursor after them. -/
def fillPage (fromRoot toRoot : FileHash) (request : DiffPageRequest) :
    List FileDelta → Nat → Nat → Bytes → Except CodecError (Nat × Nat × Bytes)
  | [], count, recordBytes, cursor => .ok (count, recordBytes, cursor)
  | delta :: rest, count, recordBytes, cursor =>
    if request.maxRecords ≤ count then .ok (count, recordBytes, cursor) else do
      let encodedLen ← encodedRecordLen delta
      let nextCursor ← candidateCursor fromRoot toRoot delta rest
      if request.maxPlainBytes < pageHeaderBytes + nextCursor.length + (recordBytes + encodedLen) then
        if count = 0 then .error ⟨"one diff record exceeds negotiated page cap"⟩
        else .ok (count, recordBytes, cursor)
      else
        fillPage fromRoot toRoot request rest (count + 1) (recordBytes + encodedLen) nextCursor

def startOf (deltas : List FileDelta) : Option DiffCursor → Except CodecError Nat
  | none => .ok 0
  | some cursor =>
    match search leftKey deltas cursor.key.order with
    | .ok index => .ok (index + 1)
    | .error _ => .error ⟨"diff cursor record is absent from snapshot"⟩

def finalCursor (fromRoot toRoot : FileHash) (deltas : List FileDelta) (stop : Nat)
    (cursor : Bytes) : Except CodecError Bytes :=
  if h : stop < deltas.length then
    if cursor.isEmpty then
      match stop with
      | 0 => .error ⟨"diff page made no cursor progress"⟩
      | previous + 1 =>
        encodeCursor fromRoot toRoot (deltas.get ⟨previous, Nat.lt_of_succ_lt h⟩)
    else .ok cursor
  else .ok []

def pageBytes (fromRoot toRoot : FileHash) (count : Nat) (cursor records : Bytes) : Bytes :=
  pageMagic ++ (fromRoot.val ++ (toRoot.val ++ (leBytes 4 count ++ (leBytes 2 cursor.length ++
    (cursor ++ records)))))

def encodePage (fromRoot toRoot : FileHash) (deltas : List FileDelta) (request : DiffPageRequest) :
    Except CodecError EncodedPage := do
  reject (request.fromRoot ≠ fromRoot) "diff request source root changed"
  reject (request.toRoot.any (· ≠ toRoot)) "diff request target root changed"
  reject (request.cursor.any fun cursor => cursor.fromRoot ≠ fromRoot || cursor.toRoot ≠ toRoot)
    "diff cursor snapshot changed"
  let start ← startOf deltas request.cursor
  let (count, _, cursor) ← fillPage fromRoot toRoot request (deltas.drop start) 0 0 []
  let nextCursor ← finalCursor fromRoot toRoot deltas (start + count) cursor
  reject (2 ^ 16 ≤ nextCursor.length) "diff cursor length overflow"
  reject (2 ^ 32 ≤ count) "diff record count overflow"
  let records ← ((deltas.drop start).take count).mapM encodeRecord
  let output := pageBytes fromRoot toRoot count nextCursor records.flatten
  reject (request.maxPlainBytes < output.length) "encoded diff page exceeded negotiated cap"
  return ⟨output, count, start + count < deltas.length⟩

section Records

variable {delta : FileDelta} {n : Nat}

theorem length_varint : (varint n).length = varintLen n := by
  induction n using varint.induct with
  | case1 n h => rw [varint, varintLen, if_pos h, if_pos (by omega), length_singleton]
  | case2 n h ih =>
    rw [varint, varintLen, if_neg h, if_neg (by omega), length_cons, ih]

theorem varintLen_le (h : n ≤ maxPathBytes) : varintLen n ≤ 2 := by
  rw [maxPathBytes] at h
  rw [varintLen]
  split_ifs
  · exact Nat.le_succ 1
  · rw [varintLen, if_pos (by omega)]

def recordBytes (delta : FileDelta) : Bytes :=
  [delta.action] ++ (varint delta.path.utf8ByteSize ++ (asBytes delta.path ++
    ((if delta.action = 4 then varint delta.oldPath.utf8ByteSize ++ asBytes delta.oldPath else []) ++
      encodeContent delta)))

def maxRecordBytes : Nat := 1 + 2 * (2 + maxPathBytes) + 48

theorem encodeVarint_of_le (h : n ≤ maxPathBytes) : encodeVarint n = .ok (varint n) := by
  have hsmall : maxPathBytes < 2 ^ 32 := by decide
  simp only [encodeVarint, bind_eq_ok, exists_unit, reject_eq_ok, decide_eq_false_iff_not, not_le]
  exact ⟨h.trans_lt hsmall, rfl⟩

theorem encodeRecord_of_valid (h : validateDelta delta = .ok ()) :
    encodeRecord delta = .ok (recordBytes delta) := by
  have hpath := encodeVarint_of_le (validatePath_size (validateDelta_path h)).2
  have hold := encodeVarint_of_le (oldPath_size_le h)
  rw [encodeRecord, hpath]
  cases delta with
  | renamed path oldPath hash size mtimeMs =>
    change (encodeVarint oldPath.utf8ByteSize >>= _) >>= _ = _
    change encodeVarint oldPath.utf8ByteSize = _ at hold
    rw [hold]
    rfl
  | added => rfl
  | modified => rfl
  | deleted => rfl

theorem length_contentBytes (hash : FileHash) (size mtimeMs : UInt64) :
    (contentBytes hash size mtimeMs).length = 32 + 8 + 8 := by
  rw [contentBytes, length_append, length_append, hash.property, leBytes_length, leBytes_length]

theorem length_encodeContent : (encodeContent delta).length = contentLen delta := by
  cases delta with
  | deleted => rfl
  | added => exact length_contentBytes _ _ _
  | modified => exact length_contentBytes _ _ _
  | renamed => exact length_contentBytes _ _ _

theorem encodedRecordLen_of_valid (h : validateDelta delta = .ok ()) :
    encodedRecordLen delta = .ok (recordBytes delta).length := by
  have hrename : (if delta.action = 4 then
      varint delta.oldPath.utf8ByteSize ++ asBytes delta.oldPath else []).length =
        renameLen delta := by
    cases delta with
    | renamed =>
      change (varint _ ++ asBytes _).length = _
      rw [length_append, length_varint, asBytes_length]
      rfl
    | added => rfl
    | modified => rfl
    | deleted => rfl
  rw [encodedRecordLen, h, recordBytes]
  simp only [length_append, length_varint, asBytes_length, hrename, length_encodeContent,
    length_cons, length_nil]
  apply congrArg Except.ok
  omega

theorem length_recordBytes_le (h : validateDelta delta = .ok ()) :
    (recordBytes delta).length ≤ maxRecordBytes := by
  have hpath := (validatePath_size (validateDelta_path h)).2
  have hold := oldPath_size_le h
  have hpathLen := varintLen_le hpath
  have holdLen := varintLen_le hold
  have hcontent : contentLen delta ≤ 48 := by
    cases delta <;> simp [contentLen]
  rw [recordBytes, maxRecordBytes]
  split_ifs
  · simp only [length_append, length_varint, asBytes_length, length_encodeContent,
      length_cons, length_nil]
    omega
  · simp only [length_append, length_varint, asBytes_length, length_encodeContent,
      length_cons, length_nil]
    omega

end Records

section Filling

variable {fromRoot toRoot : FileHash} {request : DiffPageRequest} {deltas rest taken left : List FileDelta}
  {count size start : Nat} {cursor : Bytes} {delta : FileDelta}

def cursorPast (fromRoot toRoot : FileHash) (delta : FileDelta) (rest : List FileDelta) : Bytes :=
  if rest.isEmpty then [] else cursorBytes fromRoot toRoot (keyOf delta)

/-- The cursor after the records taken, when `cursor` is the one before them. -/
def cursorAfter (fromRoot toRoot : FileHash) (cursor : Bytes) (taken left : List FileDelta) : Bytes :=
  match taken.getLast? with
  | none => cursor
  | some delta => cursorPast fromRoot toRoot delta left

theorem cursorAfter_cons : cursorAfter fromRoot toRoot cursor (delta :: taken) left =
    cursorAfter fromRoot toRoot (cursorPast fromRoot toRoot delta (taken ++ left)) taken left := by
  cases taken with
  | nil => rfl
  | cons next taken =>
    rw [cursorAfter, cursorAfter, getLast?_cons_cons, getLast?_cons]

theorem candidateCursor_of_valid (h : validateDelta delta = .ok ()) :
    candidateCursor fromRoot toRoot delta rest = .ok (cursorPast fromRoot toRoot delta rest) := by
  rw [candidateCursor, cursorPast, encodeCursor_of_valid h]
  split_ifs <;> rfl

theorem length_cursorPast_le (h : validateDelta delta = .ok ()) :
    (cursorPast fromRoot toRoot delta rest).length ≤ maxCursorBytes := by
  rw [cursorPast]
  split_ifs
  · exact Nat.zero_le _
  · exact cursorBytes_length_le h

theorem fillPage_spec (hvalid : ∀ delta ∈ rest, validateDelta delta = .ok ())
    (hmin : minPageBytes ≤ request.maxPlainBytes) (hfirst : count = 0 → size = 0)
    (hfits : pageHeaderBytes + cursor.length + size ≤ request.maxPlainBytes) :
    ∃ taken left, rest = taken ++ left ∧
      fillPage fromRoot toRoot request rest count size cursor = .ok (count + taken.length,
        size + (taken.flatMap recordBytes).length,
        cursorAfter fromRoot toRoot cursor taken left) ∧
      pageHeaderBytes + (cursorAfter fromRoot toRoot cursor taken left).length +
        (size + (taken.flatMap recordBytes).length) ≤ request.maxPlainBytes ∧
      (count = 0 → 0 < request.maxRecords → taken = [] → left = []) := by
  induction rest generalizing count size cursor with
  | nil => exact ⟨[], [], rfl, rfl, hfits, fun _ _ _ => rfl⟩
  | cons delta rest ih =>
    have hdelta := hvalid delta mem_cons_self
    by_cases hfull : request.maxRecords ≤ count
    · refine ⟨[], delta :: rest, rfl, if_pos hfull, hfits, fun hzero hpos => ?_⟩
      omega
    · have hstep : fillPage fromRoot toRoot request (delta :: rest) count size cursor =
          if request.maxPlainBytes < pageHeaderBytes +
              (cursorPast fromRoot toRoot delta rest).length +
              (size + (recordBytes delta).length) then
            if count = 0 then .error ⟨"one diff record exceeds negotiated page cap"⟩
            else .ok (count, size, cursor)
          else
            fillPage fromRoot toRoot request rest (count + 1) (size + (recordBytes delta).length)
              (cursorPast fromRoot toRoot delta rest) := by
        rw [fillPage, if_neg hfull, encodedRecordLen_of_valid hdelta,
          candidateCursor_of_valid hdelta]
        rfl
      rw [hstep]
      have hrecord := length_recordBytes_le hdelta
      have hcursorLen := (@length_cursorPast_le fromRoot toRoot rest) hdelta
      by_cases hbig : request.maxPlainBytes < pageHeaderBytes +
          (cursorPast fromRoot toRoot delta rest).length + (size + (recordBytes delta).length)
      · have hone : pageHeaderBytes + maxCursorBytes + maxRecordBytes ≤ minPageBytes := by decide
        have hcount : count ≠ 0 := by
          intro hzero
          have := hfirst hzero
          omega
        rw [if_pos hbig, if_neg hcount]
        exact ⟨[], delta :: rest, rfl, rfl, hfits, fun hzero => (hcount hzero).elim⟩
      · obtain ⟨taken, left, rfl, hfill, hsize, -⟩ := (@ih (count + 1))
          (fun d hd => hvalid d (mem_cons_of_mem _ hd)) (fun hzero => (nomatch hzero))
          (not_lt.1 hbig)
        rw [if_neg hbig, hfill]
        have hsum : size + (recordBytes delta).length + (taken.flatMap recordBytes).length =
            size + ((delta :: taken).flatMap recordBytes).length := by
          rw [flatMap_cons, length_append]
          omega
        refine ⟨delta :: taken, left, rfl, ?_, ?_, fun _ _ hnil => (nomatch hnil)⟩
        · rw [cursorAfter_cons, hsum, length_cons, Nat.add_right_comm, Nat.add_assoc]
        · rw [cursorAfter_cons, ← hsum]
          exact hsize

theorem mapM_encodeRecord (hvalid : ∀ delta ∈ taken, validateDelta delta = .ok ()) :
    taken.mapM encodeRecord = .ok (taken.map recordBytes) := by
  induction taken with
  | nil => rfl
  | cons delta taken ih =>
    rw [mapM_cons, encodeRecord_of_valid (hvalid delta mem_cons_self),
      ih fun d hd => hvalid d (mem_cons_of_mem _ hd)]
    rfl

theorem length_le_flatMap : taken.length ≤ (taken.flatMap recordBytes).length := by
  induction taken with
  | nil => exact Nat.le_refl 0
  | cons delta taken ih =>
    rw [flatMap_cons, length_append, length_cons, recordBytes, length_append, length_singleton]
    omega

theorem length_pageBytes {records : Bytes} : (pageBytes fromRoot toRoot count cursor records).length =
    pageHeaderBytes + cursor.length + records.length := by
  have hmagic : pageMagic.length = 4 := by decide
  simp only [pageBytes, length_append, hmagic, fromRoot.property, toRoot.property,
    leBytes_length, pageHeaderBytes]
  omega

theorem length_cursorAfter_lt (hvalid : ∀ delta ∈ taken, validateDelta delta = .ok ()) :
    (cursorAfter fromRoot toRoot [] taken left).length < 2 ^ 16 := by
  rw [cursorAfter]
  cases hlast : taken.getLast? with
  | none => exact Nat.two_pow_pos 16
  | some delta =>
    exact (length_cursorPast_le (hvalid delta (mem_of_getLast? hlast))).trans_lt (by decide)

theorem finalCursor_eq (hdrop : deltas.drop start = taken ++ left)
    (hprogress : taken = [] → left = []) : finalCursor fromRoot toRoot deltas (start + taken.length)
      (cursorAfter fromRoot toRoot [] taken left) =
        .ok (cursorAfter fromRoot toRoot [] taken left) := by
  have hlen := congrArg List.length hdrop
  rw [length_drop, length_append] at hlen
  rw [finalCursor]
  cases left with
  | nil =>
    rw [dif_neg (by simp at hlen; omega), cursorAfter]
    cases taken.getLast? <;> rfl
  | cons next left =>
    have hne : taken ≠ [] := fun hnil => (nomatch hprogress hnil)
    rw [dif_pos (by simp at hlen; omega), if_neg]
    rw [cursorAfter, getLast?_eq_some_getLast hne]
    nofun

theorem encodePage_of_start (hvalid : ∀ delta ∈ deltas, validateDelta delta = .ok ())
    (hfrom : request.fromRoot = fromRoot) (hto : ∀ root ∈ request.toRoot, root = toRoot)
    (hroots : ∀ cursor ∈ request.cursor, cursor.fromRoot = fromRoot ∧ cursor.toRoot = toRoot)
    (hpos : 0 < request.maxRecords) (hmin : minPageBytes ≤ request.maxPlainBytes)
    (hmax : request.maxPlainBytes ≤ maxPageBytes) (hstart : startOf deltas request.cursor = .ok start) :
    ∃ taken left, deltas.drop start = taken ++ left ∧ (taken = [] → left = []) ∧
      pageHeaderBytes + (cursorAfter fromRoot toRoot [] taken left).length +
        (taken.flatMap recordBytes).length ≤ request.maxPlainBytes ∧
      encodePage fromRoot toRoot deltas request = .ok
        ⟨pageBytes fromRoot toRoot taken.length (cursorAfter fromRoot toRoot [] taken left)
          (taken.flatMap recordBytes), taken.length, !left.isEmpty⟩ := by
  obtain ⟨taken, left, hdrop, hfill, hsize, hprogress⟩ :=
    @fillPage_spec _ _ _ _ 0 _ [] (fun d hd => hvalid d (mem_of_mem_drop hd)) hmin (fun _ => rfl)
      ((by decide : pageHeaderBytes ≤ minPageBytes).trans hmin)
  simp only [Nat.zero_add] at hfill hsize
  have hgo := hprogress rfl hpos
  refine ⟨taken, left, hdrop, hgo, hsize, ?_⟩
  have htaken : ∀ delta ∈ taken, validateDelta delta = .ok () := by
    intro d hd
    apply hvalid d
    apply mem_of_mem_drop (i := start)
    rw [hdrop]
    exact mem_append_left _ hd
  have hrecords : ((deltas.drop start).take taken.length).mapM encodeRecord =
      .ok (taken.map recordBytes) := by
    rw [hdrop, take_left]
    exact mapM_encodeRecord htaken
  have hcount : taken.length < 2 ^ 32 := by
    have := @length_le_flatMap taken
    rw [maxPageBytes] at hmax
    omega
  have hcursor := @length_cursorAfter_lt fromRoot toRoot _ left htaken
  have hmore : decide (start + taken.length < deltas.length) = !left.isEmpty := by
    have hlen := congrArg List.length hdrop
    rw [length_drop, length_append] at hlen
    cases left with
    | nil => simpa using by simp at hlen; omega
    | cons next left => simpa using by simp at hlen; omega
  simp only [encodePage, bind_eq_ok, exists_unit, reject_eq_ok]
  refine ⟨?_, ?_, ?_, start, hstart, _, hfill, _, finalCursor_eq hdrop hgo, ?_, ?_, _, hrecords,
    ?_, ?_⟩
  · simpa using hfrom
  · cases hroot : request.toRoot with
    | none => rfl
    | some root => simpa using hto root hroot
  · cases hc : request.cursor with
    | none => rfl
    | some c => simpa using hroots c hc
  · simpa using hcursor
  · simpa using hcount
  · simpa [length_pageBytes, List.flatMap] using hsize
  · rw [hmore]
    rfl

end Filling

end Obsetync.DiffPage

import Obsetync.DiffPage.Page

/-! A client that follows the cursors. -/

namespace Obsetync.DiffPage
open Wire Fallible Keyed
open List hiding take

/-- A delta as a page carries it: a deletion has no hash there. -/
structure Record where
  action : Nat
  path : String
  oldPath : String
  content : Option (FileHash × UInt64 × UInt64)
  deriving DecidableEq

def contentOf : FileDelta → Option (FileHash × UInt64 × UInt64)
  | .added _ hash size mtimeMs => some (hash, size, mtimeMs)
  | .modified _ hash size mtimeMs => some (hash, size, mtimeMs)
  | .renamed _ _ hash size mtimeMs => some (hash, size, mtimeMs)
  | .deleted .. => none

def recordOf (delta : FileDelta) : Record :=
  ⟨delta.action.toNat, delta.path, delta.oldPath, contentOf delta⟩

structure Page where
  fromRoot : FileHash
  toRoot : FileHash
  records : List Record
  nextCursor : Bytes
  wireBytes : Nat
  deriving DecidableEq

def truncated : CodecError := ⟨"diff page is truncated"⟩

def readText (n : Nat) : Reader CodecError String := do
  let raw ← take truncated n
  ask (orElse (fromUtf8 raw) "text is not UTF-8")

def readRoot : Reader CodecError FileHash := do
  let raw ← take truncated 32
  if h : raw.length = 32 then return ⟨raw, h⟩ else ask (.error truncated)

def readVarint : Nat → Reader CodecError Nat
  | 0 => ask (.error ⟨"diff varint is too long"⟩)
  | fuel + 1 => do
    let byte ← uint truncated 1
    if byte < 0x80 then return byte else do
      let high ← readVarint fuel
      return byte % 0x80 + 0x80 * high

def readRename (action : Nat) : Reader CodecError String :=
  if action = 4 then do
    let n ← readVarint 5
    readText n
  else pure ""

def readContent (action : Nat) : Reader CodecError (Option (FileHash × UInt64 × UInt64)) :=
  if action = 3 then pure none else do
    let hash ← readRoot
    let size ← uint truncated 8
    let mtimeMs ← uint truncated 8
    return some (hash, UInt64.ofNat size, UInt64.ofNat mtimeMs)

def readRecord : Reader CodecError Record := do
  let action ← uint truncated 1
  let n ← readVarint 5
  let path ← readText n
  let oldPath ← readRename action
  let content ← readContent action
  return ⟨action, path, oldPath, content⟩

def pageReader (wireBytes : Nat) : Reader CodecError Page := do
  let magic ← take truncated 4
  ask (reject (magic ≠ pageMagic) "diff page magic is invalid")
  let fromRoot ← readRoot
  let toRoot ← readRoot
  let recordCount ← uint truncated 4
  let nextLength ← uint truncated 2
  let nextCursor ← take truncated nextLength
  let records ← many readRecord recordCount
  return ⟨fromRoot, toRoot, records, nextCursor, wireBytes⟩

/-- The page in a body, without what the plugin's `decodeDiffPage` checks on top. -/
def readPage (body : Bytes) : Except CodecError Page := do
  let (page, rest) ← pageReader body.length body
  reject (rest ≠ []) "diff page has trailing bytes"
  return page

/-- Limits that `decode_request` accepts. -/
structure Limits where
  maxRecords : Nat
  maxPlainBytes : Nat
  records_pos : 0 < maxRecords
  records_le : maxRecords ≤ maxPageRecords
  bytes_ge : minPageBytes ≤ maxPlainBytes
  bytes_le : maxPlainBytes ≤ maxPageBytes

/-- The plugin's requests; the first page can leave the target root open. -/
def encodeDiffPageRequest (fromRoot : FileHash) (toRoot : Option FileHash) (cursor : Bytes)
    (limits : Limits) : Except CodecError Bytes := do
  reject (maxCursorBytes < cursor.length) "diff cursor exceeds hard limit"
  reject (0 < cursor.length && toRoot.isNone) "diff continuation omitted target root"
  return requestMagic ++ (fromRoot.val ++ ((toRoot.getD zeroRoot).val ++
    (leBytes 4 limits.maxRecords ++ (leBytes 4 limits.maxPlainBytes ++
      (leBytes 2 cursor.length ++ cursor)))))

/-- What the server does with a request for two roots that differ by the deltas. -/
def answer (fromRoot toRoot : FileHash) (deltas : List FileDelta) (body : Bytes) :
    Except CodecError EncodedPage := do
  let request ← decodeRequest body
  encodePage fromRoot toRoot deltas request

def fetch (server : Bytes → Except CodecError EncodedPage) (fromRoot : FileHash)
    (target : Option FileHash) (cursor : Bytes) (limits : Limits) : Except CodecError Page := do
  let body ← encodeDiffPageRequest fromRoot target cursor limits
  let encoded ← server body
  readPage encoded.bytes

/-- At most `fuel` pages, each asked for with the cursor of the one before. -/
def followPages (server : Bytes → Except CodecError EncodedPage) (fromRoot : FileHash)
    (limits : Nat → Limits) : Nat → Nat → Option FileHash → Bytes → Except CodecError (List Page)
  | 0, _, _, _ => .error ⟨"too many pages"⟩
  | fuel + 1, index, target, cursor => do
    let page ← fetch server fromRoot target cursor (limits index)
    if page.nextCursor.isEmpty then return [page] else do
      let pages ← followPages server fromRoot limits fuel (index + 1) (some page.toRoot)
        page.nextCursor
      return page :: pages

section Reading

variable {delta : FileDelta} {fromRoot toRoot : FileHash} {cursor : Bytes} {n fuel : Nat}

theorem reads_text (s : String) : Reads (readText s.utf8ByteSize) (asBytes s) s := by
  apply Reads.last (reads_take (asBytes_length s))
  intro rest
  rw [fromUtf8_asBytes]
  rfl

theorem reads_root (root : FileHash) : Reads readRoot root.val root := by
  apply Reads.last (reads_take root.property)
  rw [dif_pos root.property]
  exact Reads.pure

theorem toNat_or_high : (UInt8.ofNat (n % 128) ||| 0x80).toNat = n % 128 + 128 := by
  have hall : ∀ k < 128, (UInt8.ofNat k ||| 0x80).toNat = k + 128 := by decide
  exact hall _ (Nat.mod_lt n (by decide))

theorem reads_byte (b : UInt8) : Reads (uint truncated 1) [b] b.toNat := by
  have h := reads_uint (e := truncated) (n := b.toNat) (w := 1) b.toNat_lt
  rwa [leBytes, leBytes, UInt8.ofNat_toNat] at h

theorem reads_varint_of_lt (h : n < 128) : Reads (readVarint (fuel + 1)) (varint n) n := by
  rw [varint, if_pos (Nat.div_eq_of_lt h)]
  apply Reads.last (reads_byte _)
  rw [UInt8.toNat_ofNat', Nat.mod_eq_of_lt h, Nat.mod_eq_of_lt (by omega), if_pos h]
  exact Reads.pure

theorem reads_varint (h : n < 128 ^ (fuel + 1)) : Reads (readVarint (fuel + 1)) (varint n) n := by
  induction fuel generalizing n with
  | zero => exact reads_varint_of_lt h
  | succ fuel ih =>
    by_cases hlow : n < 128
    · exact reads_varint_of_lt hlow
    · have hdiv : n / 128 < 128 ^ (fuel + 1) := by
        apply Nat.div_lt_of_lt_mul
        rwa [← pow_succ']
      have hback : (n % 128 + 128) % 128 + 128 * (n / 128) = n := by omega
      rw [varint, if_neg (by omega)]
      apply (reads_byte (UInt8.ofNat (n % 128) ||| 0x80)).bind
      rw [toNat_or_high, if_neg (by omega)]
      apply Reads.last (ih hdiv)
      rw [hback]
      exact Reads.pure

theorem reads_path {path : String} (h : path.utf8ByteSize ≤ maxPathBytes) :
    Reads (readVarint 5) (varint path.utf8ByteSize) path.utf8ByteSize :=
  reads_varint (h.trans_lt (by decide))

theorem reads_rename (h : validateDelta delta = .ok ()) : Reads (readRename delta.action.toNat)
      (if delta.action = 4 then varint delta.oldPath.utf8ByteSize ++ asBytes delta.oldPath else [])
      delta.oldPath := by
  have hold := oldPath_size_le h
  cases delta with
  | renamed path oldPath hash size mtimeMs =>
    exact Reads.bind (reads_path hold) (reads_text oldPath)
  | added => exact Reads.pure
  | modified => exact Reads.pure
  | deleted => exact Reads.pure

theorem reads_content (hash : FileHash) : Reads (do
      let hash ← readRoot
      let size ← uint truncated 8
      let mtimeMs ← uint truncated 8
      return some (hash, UInt64.ofNat size, UInt64.ofNat mtimeMs))
      (contentBytes hash size mtimeMs) (some (hash, size, mtimeMs)) := by
  apply Reads.bind (reads_root hash)
  apply Reads.bind (reads_uint size.toNat_lt)
  apply Reads.last (reads_uint mtimeMs.toNat_lt)
  simp only [UInt64.ofNat_toNat]
  exact Reads.pure

theorem reads_encodeContent (delta : FileDelta) :
    Reads (readContent delta.action.toNat) (encodeContent delta) (contentOf delta) := by
  cases delta with
  | deleted => exact Reads.pure
  | added => exact reads_content _
  | modified => exact reads_content _
  | renamed => exact reads_content _

theorem reads_record (h : validateDelta delta = .ok ()) :
    Reads readRecord (recordBytes delta) (recordOf delta) := by
  have hpath := (validatePath_size (validateDelta_path h)).2
  apply Reads.bind (reads_byte _)
  apply Reads.bind (reads_path hpath)
  apply Reads.bind (reads_text delta.path)
  apply Reads.bind (reads_rename h)
  exact (reads_encodeContent delta).last Reads.pure

theorem readPage_pageBytes {taken : List FileDelta}
    (hvalid : ∀ delta ∈ taken, validateDelta delta = .ok ()) (hcount : taken.length < 2 ^ 32)
    (hcursor : cursor.length < 2 ^ 16) :
    readPage (pageBytes fromRoot toRoot taken.length cursor (taken.flatMap recordBytes)) =
      .ok ⟨fromRoot, toRoot, taken.map recordOf, cursor, pageHeaderBytes + cursor.length +
        (taken.flatMap recordBytes).length⟩ := by
  have hrecords : Reads (many readRecord taken.length) (taken.flatMap recordBytes)
      (taken.map recordOf) :=
    reads_many_map taken fun delta hdelta => reads_record (hvalid delta hdelta)
  have hread : Reads (pageReader (pageHeaderBytes + cursor.length +
      (taken.flatMap recordBytes).length)) (pageMagic ++ (fromRoot.val ++ (toRoot.val ++
        (leBytes 4 taken.length ++ (leBytes 2 cursor.length ++ (cursor ++
          taken.flatMap recordBytes))))))
      ⟨fromRoot, toRoot, taken.map recordOf, cursor, pageHeaderBytes + cursor.length +
        (taken.flatMap recordBytes).length⟩ := by
    apply Reads.bind (reads_take (by decide))
    apply Reads.ask_bind (a := ()) (by rw [reject_eq_ok]; simp)
    apply Reads.bind (reads_root fromRoot)
    apply Reads.bind (reads_root toRoot)
    apply Reads.bind (reads_uint hcount)
    apply Reads.bind (reads_uint hcursor)
    apply Reads.bind (reads_take rfl)
    exact hrecords.last Reads.pure
  have hall := hread []
  rw [append_nil] at hall
  rw [readPage, length_pageBytes, pageBytes, hall]
  rfl

end Reading

theorem sortAndValidateDeltas_spec (h : sortAndValidateDeltas deltas = .ok sorted) :
    sorted.Perm deltas ∧ Sorted leftKey sorted ∧
      ∀ delta ∈ sorted, validateDelta delta = .ok () := by
  simp only [sortAndValidateDeltas, bind_eq_ok, exists_unit, reject_eq_ok, forM_eq_ok,
    pure_eq_ok] at h
  obtain ⟨hvalid, -, horder, rfl⟩ := h
  refine ⟨sortBy_perm, ?_, fun delta hdelta => hvalid delta (sortBy_perm.mem_iff.1 hdelta)⟩
  rw [anyPair_eq_false] at horder
  have : IsTrans FileDelta fun a b => leftKey a < leftKey b := ⟨fun _ _ _ => lt_trans⟩
  rw [Sorted, ← isChain_iff_pairwise]
  simpa only [decide_eq_false_iff_not, not_le] using horder

section Following

variable {fromRoot toRoot : FileHash} {deltas before rest : List FileDelta} {target : Option FileHash}
  {cursor : Bytes} {limits : Limits}

theorem decodeRequest_body {raw : FileHash} {decoded : Option DiffCursor}
    (hlen : cursor.length ≤ maxCursorBytes)
    (hcursor : requestCursor fromRoot (if raw ≠ zeroRoot then some raw else none) cursor.length
      cursor = .ok decoded) :
    decodeRequest (requestMagic ++ (fromRoot.val ++ (raw.val ++ (leBytes 4 limits.maxRecords ++
      (leBytes 4 limits.maxPlainBytes ++ (leBytes 2 cursor.length ++ cursor)))))) =
        .ok ⟨fromRoot, if raw ≠ zeroRoot then some raw else none, limits.maxRecords,
          limits.maxPlainBytes, decoded⟩ := by
  generalize hbody : requestMagic ++ (fromRoot.val ++ (raw.val ++ (leBytes 4 limits.maxRecords ++
    (leBytes 4 limits.maxPlainBytes ++ (leBytes 2 cursor.length ++ cursor))))) = body
  have h0 : body.drop 0 = requestMagic ++ _ := hbody.symm
  have hmagic : requestMagic.length = 4 := by decide
  have h4 := drop_add_of_drop h0 hmagic
  have h36 := drop_add_of_drop h4 fromRoot.property
  have h68 := drop_add_of_drop h36 raw.property
  have h72 := drop_add_of_drop h68 leBytes_length
  have h76 := drop_add_of_drop h72 leBytes_length
  have h78 := drop_add_of_drop h76 leBytes_length
  have hsize : body.length = requestHeaderBytes + cursor.length := by
    rw [← hbody]
    simp only [length_append, hmagic, fromRoot.property, raw.property, leBytes_length,
      requestHeaderBytes]
    omega
  have htake : body.take 4 = requestMagic := by
    rw [← hbody]
    exact take_left' hmagic
  have hrecords : limits.maxRecords < 256 ^ 4 := limits.records_le.trans_lt (by decide)
  have hbytes : limits.maxPlainBytes < 256 ^ 4 := limits.bytes_le.trans_lt (by decide)
  have hshort : cursor.length < 256 ^ 2 := hlen.trans_lt (by decide)
  simp only [decodeRequest, bind_eq_ok, exists_unit, reject_eq_ok, pure_eq_ok]
  refine ⟨?_, ?_, fromRoot, readHash_of_drop h4, raw, readHash_of_drop h36, limits.maxRecords,
    readLe_of_drop h68 hrecords (by decide), limits.maxPlainBytes,
    readLe_of_drop h72 hbytes (by decide), cursor.length, readLe_of_drop h76 hshort (by decide),
    ?_, ?_, ?_, ?_, decoded, ?_, rfl⟩
  · simp [hsize]
  · simp [htake]
  · simp [limits.records_pos.ne', limits.records_le]
  · simp [limits.bytes_ge, limits.bytes_le]
  · simpa using hlen
  · simp [hsize]
  · rw [requestHeaderBytes, h78]
    exact hcursor

def cursorTo (fromRoot toRoot : FileHash) (before : List FileDelta) : Bytes :=
  match before.getLast? with
  | none => []
  | some delta => cursorBytes fromRoot toRoot (keyOf delta)

/-- What a client asks with after the records of `before`. -/
def Asks (fromRoot toRoot : FileHash) (before : List FileDelta) (target : Option FileHash)
    (cursor : Bytes) : Prop :=
  cursor = cursorTo fromRoot toRoot before ∧ (target = some toRoot ∨ target = none ∧ before = [])

theorem startOf_keyOf (hsorted : Sorted leftKey (before ++ rest)) {delta : FileDelta}
    (hlast : before.getLast? = some delta) :
    startOf (before ++ rest) (some ⟨fromRoot, toRoot, keyOf delta⟩) = .ok before.length := by
  obtain ⟨front, rfl⟩ := getLast?_eq_some_iff.1 hlast
  rw [append_assoc, singleton_append] at hsorted ⊢
  have hsearch : search leftKey (front ++ delta :: rest) (keyOf delta).order = .ok front.length :=
    search_split hsorted
  rw [startOf, hsearch, length_append]
  rfl

theorem startOf_eq_ok (hsorted : Sorted leftKey deltas)
    (h : startOf deltas (some decoded) = .ok start) :
    ∃ before delta after, deltas = before ++ delta :: after ∧ keyOf delta = decoded.key ∧
      start = before.length + 1 := by
  rw [startOf] at h
  rcases search_cases hsorted decoded.key.order with
    ⟨before, delta, after, heq, hkey, hsearch⟩ | ⟨l₁, l₂, -, hsearch, -⟩
  · rw [hsearch] at h
    cases h
    exact ⟨before, delta, after, heq, order_inj hkey, rfl⟩
  · rw [hsearch] at h
    cases h

theorem decodeRequest_asks (hzero : toRoot ≠ zeroRoot) (hsorted : Sorted leftKey (before ++ rest))
    (hvalid : ∀ delta ∈ before ++ rest, validateDelta delta = .ok ())
    (hasks : Asks fromRoot toRoot before target cursor) :
    ∃ body toRoot' decoded, encodeDiffPageRequest fromRoot target cursor limits = .ok body ∧
      decodeRequest body =
        .ok ⟨fromRoot, toRoot', limits.maxRecords, limits.maxPlainBytes, decoded⟩ ∧
      (∀ root ∈ toRoot', root = toRoot) ∧
      (∀ c ∈ decoded, c.fromRoot = fromRoot ∧ c.toRoot = toRoot) ∧
      startOf (before ++ rest) decoded = .ok before.length := by
  obtain ⟨hcursor, htarget⟩ := hasks
  rw [cursorTo] at hcursor
  cases hlast : before.getLast? with
  | none =>
    rw [hlast] at hcursor
    subst hcursor
    rw [getLast?_eq_none_iff] at hlast
    subst hlast
    refine ⟨_, _, none, rfl, decodeRequest_body (Nat.zero_le _) rfl, ?_, nofun, rfl⟩
    rcases htarget with rfl | ⟨rfl, -⟩
    · simp [hzero]
    · nofun
  | some delta =>
    rw [hlast] at hcursor
    subst hcursor
    have htarget : target = some toRoot := by
      rcases htarget with htarget | ⟨-, rfl⟩
      · exact htarget
      · cases hlast
    subst htarget
    have hdelta := hvalid delta (mem_append_left _ (mem_of_getLast? hlast))
    have hlen := (@cursorBytes_length_le fromRoot toRoot) hdelta
    have hcursor : requestCursor fromRoot (if toRoot ≠ zeroRoot then some toRoot else none)
        (cursorBytes fromRoot toRoot (keyOf delta)).length
        (cursorBytes fromRoot toRoot (keyOf delta)) =
          .ok (some ⟨fromRoot, toRoot, keyOf delta⟩) := by
      rw [requestCursor, if_neg (by rw [cursorBytes_length, cursorFixedBytes]; omega),
        decodeCursor_cursorBytes hdelta, if_pos hzero]
      simp [orElse, reject]
    refine ⟨_, _, _, ?_, decodeRequest_body hlen hcursor, ?_, ?_, startOf_keyOf hsorted hlast⟩
    · simp only [encodeDiffPageRequest, bind_eq_ok, exists_unit, reject_eq_ok]
      refine ⟨?_, ?_, rfl⟩
      · simpa using hlen
      · simp
    · simp [hzero]
    · rintro _ ⟨⟩
      exact ⟨rfl, rfl⟩

theorem fetch_spec (hzero : toRoot ≠ zeroRoot) (hsorted : Sorted leftKey (before ++ rest))
    (hvalid : ∀ delta ∈ before ++ rest, validateDelta delta = .ok ())
    (hasks : Asks fromRoot toRoot before target cursor) :
    ∃ taken left, rest = taken ++ left ∧ (taken = [] → left = []) ∧
      pageHeaderBytes + (cursorAfter fromRoot toRoot [] taken left).length +
        (taken.flatMap recordBytes).length ≤ limits.maxPlainBytes ∧
      fetch (answer fromRoot toRoot (before ++ rest)) fromRoot target cursor limits =
        .ok ⟨fromRoot, toRoot, taken.map recordOf, cursorAfter fromRoot toRoot [] taken left,
          pageHeaderBytes + (cursorAfter fromRoot toRoot [] taken left).length +
            (taken.flatMap recordBytes).length⟩ := by
  obtain ⟨body, toRoot', decoded, hbody, hdecode, hto, hroots, hstart⟩ :=
    @decodeRequest_asks _ _ _ _ _ _ limits hzero hsorted hvalid hasks
  obtain ⟨taken, left, hdrop, hprogress, hsize, hpage⟩ := (@encodePage_of_start _ _ ⟨fromRoot, toRoot', limits.maxRecords, limits.maxPlainBytes, decoded⟩) hvalid
    rfl hto hroots limits.records_pos limits.bytes_ge limits.bytes_le hstart
  rw [drop_left] at hdrop
  subst hdrop
  refine ⟨taken, left, rfl, hprogress, hsize, ?_⟩
  have htaken : ∀ delta ∈ taken, validateDelta delta = .ok () := fun d hd =>
    hvalid d (mem_append_right _ (mem_append_left _ hd))
  simp only [fetch, answer, bind_eq_ok]
  refine ⟨body, hbody, _, ⟨_, hdecode, hpage⟩, readPage_pageBytes htaken ?_
    (length_cursorAfter_lt htaken)⟩
  have hcount := @length_le_flatMap taken
  have hmax := limits.bytes_le
  rw [maxPageBytes] at hmax
  dsimp only at hsize
  omega

theorem cursorAfter_isEmpty {taken left : List FileDelta} (hprogress : taken = [] → left = []) :
    (cursorAfter fromRoot toRoot [] taken left).isEmpty = left.isEmpty := by
  rw [cursorAfter]
  cases hlast : taken.getLast? with
  | none =>
    rw [hprogress (getLast?_eq_none_iff.1 hlast)]
    rfl
  | some delta =>
    dsimp only
    rw [cursorPast]
    cases left <;> rfl

theorem asks_cursorAfter {taken left : List FileDelta} (hne : taken ≠ []) (hleft : left ≠ []) :
    Asks fromRoot toRoot (before ++ taken) (some toRoot)
      (cursorAfter fromRoot toRoot [] taken left) := by
  refine ⟨?_, .inl rfl⟩
  rw [cursorTo, getLast?_append, cursorAfter, getLast?_eq_some_getLast hne]
  dsimp only [Option.some_or]
  rw [cursorPast, if_neg (by simpa using hleft)]

theorem followPages_spec (hzero : toRoot ≠ zeroRoot) (limits : Nat → Limits) {fuel index : Nat}
    (hfuel : rest.length < fuel) (hsorted : Sorted leftKey (before ++ rest))
    (hvalid : ∀ delta ∈ before ++ rest, validateDelta delta = .ok ())
    (hasks : Asks fromRoot toRoot before target cursor) :
    ∃ pages, followPages (answer fromRoot toRoot (before ++ rest)) fromRoot limits fuel index target
        cursor = .ok pages ∧
      (∀ i page, pages[i]? = some page → page.wireBytes ≤ (limits (index + i)).maxPlainBytes) ∧
      pages.flatMap Page.records = rest.map recordOf := by
  induction fuel generalizing before rest target cursor index with
  | zero => exact (Nat.not_lt_zero _ hfuel).elim
  | succ fuel ih =>
    obtain ⟨taken, left, rfl, hprogress, hsize, hfetch⟩ :=
      fetch_spec hzero hsorted hvalid hasks
    rw [followPages, hfetch]
    change ∃ pages, (if (cursorAfter fromRoot toRoot [] taken left).isEmpty then _ else _) = _ ∧ _
    rw [cursorAfter_isEmpty hprogress]
    cases left with
    | nil =>
      refine ⟨_, rfl, ?_, ?_⟩
      · intro i page hpage
        cases i with
        | zero =>
          cases hpage
          exact hsize
        | succ i => cases hpage
      · simp
    | cons next left =>
      have hne : taken ≠ [] := fun hnil => (nomatch hprogress hnil)
      have hlen : (next :: left).length < fuel := by
        have := length_pos_iff.2 hne
        rw [length_append] at hfuel
        omega
      rw [← append_assoc] at hsorted hvalid ⊢
      obtain ⟨pages, hpages, hbound, hrecords⟩ := ih hlen hsorted hvalid
        (asks_cursorAfter hne (cons_ne_nil _ _))
      rw [if_neg (by simp)]
      dsimp only
      rw [hpages]
      refine ⟨_, rfl, ?_, ?_⟩
      · intro i page hpage
        cases i with
        | zero =>
          cases hpage
          exact hsize
        | succ i =>
          rw [← Nat.add_assoc, Nat.add_right_comm]
          exact hbound i page hpage
      · rw [flatMap_cons, hrecords, map_append]

end Following

theorem answer_eq_ok (hsorted : Sorted leftKey deltas)
    (hvalid : ∀ delta ∈ deltas, validateDelta delta = .ok ())
    (h : answer fromRoot toRoot deltas body = .ok page) :
    ∃ before taken left, deltas = before ++ taken ++ left ∧
      page.bytes = pageBytes fromRoot toRoot taken.length (cursorAfter fromRoot toRoot [] taken left)
        (taken.flatMap recordBytes) ∧ taken.length < 2 ^ 32 ∧
      body.drop requestHeaderBytes = cursorTo fromRoot toRoot before := by
  rw [answer, bind_eq_ok] at h
  obtain ⟨request, hdecode, hpage⟩ := h
  have hd := decodeRequest_decoded hdecode
  have hpage' := hpage
  simp only [encodePage, bind_eq_ok, exists_unit, reject_eq_ok] at hpage'
  obtain ⟨hfrom, hto, hroots, start, hstart, -⟩ := hpage'
  simp only [decide_eq_false_iff_not, not_not] at hfrom
  have hto : ∀ root ∈ request.toRoot, root = toRoot := by
    rintro root hroot
    rw [hroot] at hto
    simpa using hto
  have hroots : ∀ cursor ∈ request.cursor, cursor.fromRoot = fromRoot ∧ cursor.toRoot = toRoot := by
    rintro cursor hcursor
    rw [hcursor] at hroots
    simpa using hroots
  obtain ⟨taken, left, hdrop, -, hsize, hencode⟩ := encodePage_of_start hvalid hfrom hto hroots
    hd.records_pos hd.bytes_ge hd.bytes_le hstart
  cases hencode.symm.trans hpage
  have hcount : taken.length < 2 ^ 32 := by
    have hle := @length_le_flatMap taken
    have hmax := hd.bytes_le
    rw [maxPageBytes] at hmax
    omega
  cases hcursor : request.cursor with
  | none =>
    rw [hcursor] at hstart
    cases hstart
    exact ⟨[], taken, left, hdrop, rfl, hcount, hd.first hcursor⟩
  | some cursor =>
    rw [hcursor] at hstart
    obtain ⟨front, delta, after, rfl, hkey, rfl⟩ := startOf_eq_ok hsorted hstart
    have hafter : (front ++ delta :: after).drop (front.length + 1) = after := by simp
    rw [hafter] at hdrop
    subst hdrop
    refine ⟨front ++ [delta], taken, left, by simp, rfl, hcount, ?_⟩
    rw [hd.next cursor hcursor, cursorTo, getLast?_concat, (hroots cursor hcursor).1,
      (hroots cursor hcursor).2, ← hkey]

/-- Following the cursors delivers the deltas in order, and whatever bytes are sent as a request,
the answer starts right after the record that its cursor names byte for byte. -/
theorem paged_diff_complete (deltas sorted : List FileDelta)
    (hsorted : sortAndValidateDeltas deltas = .ok sorted) (fromRoot toRoot : FileHash)
    (hzero : toRoot ≠ zeroRoot) : sorted.Perm deltas ∧
    (∀ (limits : Nat → Limits) (target : Option FileHash), target = none ∨ target = some toRoot →
      ∃ pages, followPages (answer fromRoot toRoot sorted) fromRoot limits (sorted.length + 1) 0
          target [] = .ok pages ∧
        (∀ i page, pages[i]? = some page → page.wireBytes ≤ (limits i).maxPlainBytes) ∧
        pages.flatMap Page.records = sorted.map recordOf) ∧
    ∀ (body : Bytes) (page : EncodedPage), answer fromRoot toRoot sorted body = .ok page →
      ∃ before taken left cursor, sorted = before ++ taken ++ left ∧ readPage page.bytes =
          .ok ⟨fromRoot, toRoot, taken.map recordOf, cursor, page.bytes.length⟩ ∧
        body.drop requestHeaderBytes = cursorTo fromRoot toRoot before := by
  obtain ⟨hperm, horder, hvalid⟩ := sortAndValidateDeltas_spec hsorted
  refine ⟨hperm, ?_, ?_⟩
  · intro limits target htarget
    obtain ⟨pages, hpages, hbound, hrecords⟩ := (@followPages_spec _ _ [])
      hzero limits (Nat.lt_succ_self sorted.length) horder hvalid
      (⟨rfl, htarget.symm.imp_right fun h => ⟨h, rfl⟩⟩ : Asks fromRoot toRoot [] target [])
    refine ⟨pages, hpages, fun i page hpage => ?_, hrecords⟩
    have := hbound i page hpage
    rwa [Nat.zero_add] at this
  · intro body page hpage
    obtain ⟨before, taken, left, rfl, hbytes, hcount, hbody⟩ := answer_eq_ok horder hvalid hpage
    have htaken : ∀ delta ∈ taken, validateDelta delta = .ok () := fun d hd =>
      hvalid d (mem_append_left _ (mem_append_right _ hd))
    refine ⟨before, taken, left, cursorAfter fromRoot toRoot [] taken left, rfl, ?_, hbody⟩
    rw [hbytes, readPage_pageBytes htaken hcount (length_cursorAfter_lt htaken), length_pageBytes]

theorem cursorBytes_inj (ha : validateDelta a = .ok ()) (hb : validateDelta b = .ok ())
    (h : cursorBytes fromRoot toRoot (keyOf a) = cursorBytes fromRoot toRoot (keyOf b)) :
    keyOf a = keyOf b := by
  have hdecode := (@decodeCursor_cursorBytes fromRoot toRoot) ha
  rw [h, decodeCursor_cursorBytes hb] at hdecode
  exact congrArg DiffCursor.key (Except.ok.inj hdecode.symm)

theorem cursorAfter_ne_last (hsorted : Sorted leftKey (before ++ taken ++ left))
    (hvalid : ∀ delta ∈ before ++ taken ++ left, validateDelta delta = .ok ())
    (hlast : (before ++ taken ++ left).getLast? = some last) :
    cursorAfter fromRoot toRoot [] taken left ≠ cursorBytes fromRoot toRoot (keyOf last) := by
  intro h
  rw [cursorAfter] at h
  cases htaken : taken.getLast? with
  | none =>
    rw [htaken] at h
    cases h
  | some delta =>
    rw [htaken] at h
    dsimp only at h
    rw [cursorPast] at h
    cases left with
    | nil => cases h
    | cons next left =>
      have hmem : last ∈ next :: left := by
        rw [getLast?_append, getLast?_eq_some_getLast (cons_ne_nil _ _)] at hlast
        cases hlast
        exact getLast_mem _
      have hdelta : delta ∈ before ++ taken :=
        mem_append_right _ (mem_of_getLast? htaken)
      have hlt := (pairwise_append.1 hsorted).2.2 delta hdelta last hmem
      have hkey := cursorBytes_inj (hvalid delta (mem_append_left _ hdelta))
        (hvalid last (mem_append_right _ hmem)) h
      exact hlt.ne (congrArg CursorKey.order hkey)

def rootOf (b : UInt8) : FileHash := ⟨List.replicate 32 b, length_repeated b⟩

def notes : List FileDelta := [.added "a.md" (rootOf 7) 1 1, .added "b.md" (rootOf 8) 1 1]

def oneByOne : Limits := ⟨1, minPageBytes, by decide, by decide, by decide, by decide⟩

theorem paged_diff_complete_notes : sortAndValidateDeltas notes.reverse = .ok notes ∧
    ∃ pages, followPages (answer (rootOf 1) (rootOf 2) notes) (rootOf 1) (fun _ => oneByOne) 3 0
      none [] = .ok pages ∧ pages.flatMap Page.records = notes.map recordOf := by
  have hsort : sortAndValidateDeltas notes.reverse = .ok notes := by decide +kernel
  obtain ⟨-, hpages, -⟩ := paged_diff_complete notes.reverse notes hsort (rootOf 1) (rootOf 2)
    (by decide)
  obtain ⟨pages, hpages, -, hrecords⟩ := hpages (fun _ => oneByOne) none (.inl rfl)
  exact ⟨hsort, pages, hpages, hrecords⟩

/-- A cursor that no page carried is answered, with no record at all, and a target root of zeros
ends after one page. -/
theorem forged_cursor_answered : sortAndValidateDeltas notes = .ok notes ∧
    (∀ body page read, answer (rootOf 1) (rootOf 2) notes body = .ok page →
      readPage page.bytes = .ok read →
      read.nextCursor ≠ cursorTo (rootOf 1) (rootOf 2) notes) ∧
    (fetch (answer (rootOf 1) (rootOf 2) notes) (rootOf 1) (some (rootOf 2))
      (cursorTo (rootOf 1) (rootOf 2) notes) oneByOne).map (fun page => (page.records, page.nextCursor)) =
        .ok ([], []) ∧
    followPages (answer (rootOf 1) zeroRoot notes) (rootOf 1) (fun _ => oneByOne) 3 0 none [] =
      .error ⟨"continuation request omitted target root"⟩ := by
  have hsort : sortAndValidateDeltas notes = .ok notes := by decide +kernel
  refine ⟨hsort, ?_, by decide +kernel, by decide +kernel⟩
  intro body page read hanswer hread
  obtain ⟨-, horder, hvalid⟩ := sortAndValidateDeltas_spec hsort
  obtain ⟨before, taken, left, heq, hbytes, hcount, -⟩ := answer_eq_ok horder hvalid hanswer
  rw [heq] at horder hvalid ⊢
  have htaken : ∀ delta ∈ taken, validateDelta delta = .ok () := fun d hd =>
    hvalid d (mem_append_left _ (mem_append_right _ hd))
  rw [hbytes, readPage_pageBytes htaken hcount (length_cursorAfter_lt htaken)] at hread
  cases hread
  have hlast : (before ++ taken ++ left).getLast? = some (.added "b.md" (rootOf 8) 1 1) := by
    rw [← heq]
    rfl
  rw [cursorTo, hlast]
  exact cursorAfter_ne_last horder hvalid hlast

end Obsetync.DiffPage

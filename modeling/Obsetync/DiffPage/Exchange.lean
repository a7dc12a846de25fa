import Obsetync.DiffPage.Agreement

/-! A request of the plugin and the page it gets. -/

namespace Obsetync.DiffPage.Plugin
open Wire Fallible Keyed List
open Pull (rootFromHex hexBytes)

section Requests

variable {fromRoot toRoot : FileHash} {limits : DiffPageLimits} {before rest : List FileDelta}

theorem hexValue_lower (h : Pull.hexValue c = some n) : n < 16 ∧ c.toLower = hexDigit n := by
  have hall : ∀ k < 128, ∀ n ∈ Pull.hexValue (Char.ofNat k),
      n < 16 ∧ (Char.ofNat k).toLower = hexDigit n := by decide +kernel
  have hascii : c.toNat < 128 := by
    by_contra hbig
    have hdigit : ¬ ('0' ≤ c ∧ c ≤ '9') := fun hc => hbig (lt_of_le_of_lt hc.2 (by decide))
    have hlower : ¬ ('a' ≤ c ∧ c ≤ 'f') := fun hc => hbig (lt_of_le_of_lt hc.2 (by decide))
    have hupper : ¬ ('A' ≤ c ∧ c ≤ 'F') := fun hc => hbig (lt_of_le_of_lt hc.2 (by decide))
    rw [Pull.hexValue, if_neg hdigit, if_neg hlower, if_neg hupper] at h
    cases h
  have hc := hall c.toNat hascii
  rw [Char.ofNat_toNat] at hc
  exact hc n h

theorem map_toLower_of_hexBytes : ∀ {cs : List Char} {bytes : Bytes}, hexBytes cs = some bytes →
    cs.map Char.toLower = hexChars bytes
  | [], _, h => by
    cases h
    rfl
  | [_], _, h => by cases h
  | a :: b :: rest, bytes, h => by
    rw [hexBytes] at h
    split at h
    next high low tail hhigh hlow hrest =>
      cases h
      obtain ⟨hhighLt, hhighDigit⟩ := hexValue_lower hhigh
      obtain ⟨hlowLt, hlowDigit⟩ := hexValue_lower hlow
      have hnat : (UInt8.ofNat (16 * high + low)).toNat = 16 * high + low := by
        rw [UInt8.toNat_ofNat']
        omega
      have hdiv : (16 * high + low) / 16 = high := by omega
      have hmod : (16 * high + low) % 16 = low := by omega
      rw [map_cons, map_cons, map_toLower_of_hexBytes hrest, hexChars, hexChars, flatMap_cons,
        hnat, hdiv, hmod, hhighDigit, hlowDigit]
      rfl
    next => cases h

theorem toLowerCase_of_rootFromHex (h : rootFromHex hex = some root) :
    toLowerCase hex = hexEncode root.val := by
  obtain ⟨bytes, hbytes, h⟩ := Option.bind_eq_some_iff.1 h
  split_ifs at h with hlen
  cases h
  rw [toLowerCase, map_toLower_of_hexBytes hbytes, hexEncode]

/-- The plugin asks for what follows the records of `before`; the first request can leave the target
open. -/
structure Asking (fromRoot toRoot : FileHash) (before : List FileDelta) (fromHex : String)
    (toHex : Option String) (cursor : Option Bytes) : Prop where
  source : rootFromHex fromHex = some fromRoot
  target : ∀ hex ∈ toHex, rootFromHex hex = some toRoot
  pinned : toHex = none → before = []
  cursor_eq : cursor = issued fromRoot toRoot before

variable {fromHex : String} {toHex : Option String} {cursor : Option Bytes}

def serverLimits (limits : DiffPageLimits) (h : boundedLimits limits = true) : Limits where
  maxRecords := limits.maxRecords
  maxPlainBytes := limits.maxBytes
  records_pos := by
    simp only [boundedLimits, Bool.and_eq_true, decide_eq_true_eq] at h
    exact h.1.1.1.2
  records_le := by
    simp only [boundedLimits, Bool.and_eq_true, decide_eq_true_eq] at h
    exact h.1.1.2
  bytes_ge := by
    simp only [boundedLimits, Bool.and_eq_true, decide_eq_true_eq] at h
    exact h.1.1.1.1.1
  bytes_le := by
    simp only [boundedLimits, Bool.and_eq_true, decide_eq_true_eq] at h
    exact h.1.1.1.1.2

def requestBytes (fromRoot raw : FileHash) (limits : DiffPageLimits) (cursor : Bytes) : Bytes :=
  requestMagic ++ (fromRoot.val ++ (raw.val ++ (leBytes 4 limits.maxRecords ++
    (leBytes 4 limits.maxBytes ++ (leBytes 2 cursor.length ++ cursor)))))

theorem length_issued (hvalid : ∀ d ∈ before, validateDelta d = .ok ()) :
    ((issued fromRoot toRoot before).getD []).length ≤ maxCursorBytes := by
  rw [issued]
  cases hlast : before.getLast? with
  | none => exact Nat.zero_le _
  | some d => exact cursorBytes_length_le (hvalid d (mem_of_getLast? hlast))

theorem encodeDiffPageRequest_eq (h : Asking fromRoot toRoot before fromHex toHex cursor)
    (hvalid : ∀ d ∈ before, validateDelta d = .ok ()) (hbounded : boundedLimits limits = true) :
    encodeDiffPageRequest fromHex toHex cursor limits =
      .ok (requestBytes fromRoot (toHex.elim zeroRoot fun _ => toRoot) limits (cursor.getD [])) := by
  have hlen := @length_issued fromRoot toRoot _ hvalid
  rw [← h.cursor_eq] at hlen
  have hhard : maxCursorBytes ≤ hardMaxCursorBytes ∧ hardMaxCursorBytes ≤ 0xffff := by decide
  simp only [encodeDiffPageRequest, validateLimits, hbounded, bind_eq_ok, exists_unit, reject_eq_ok, decodeHash,
    h.source, orElse_eq_ok, Option.some_inj, exists_eq_left', pure_eq_ok]
  refine ⟨rfl, toHex.elim zeroRoot fun _ => toRoot, ?_, ?_, ?_, rfl⟩
  · cases htarget : toHex with
    | none => rfl
    | some hex =>
      change orElse (rootFromHex hex) _ = _
      rw [h.target hex htarget]
      rfl
  · rw [Bool.or_eq_false_iff, decide_eq_false_iff_not, decide_eq_false_iff_not]
    omega
  · rw [Bool.and_eq_false_imp]
    intro hpos
    cases htarget : toHex with
    | some hex => rfl
    | none =>
      rw [h.cursor_eq, h.pinned htarget] at hpos
      exact absurd (of_decide_eq_true hpos) (lt_irrefl 0)

theorem decodeRequest_requestBytes (h : Asking fromRoot toRoot before fromHex toHex cursor)
    (hzero : toRoot ≠ zeroRoot) (hvalid : ∀ d ∈ before, validateDelta d = .ok ())
    (hbounded : boundedLimits limits = true) :
    decodeRequest (requestBytes fromRoot (toHex.elim zeroRoot fun _ => toRoot) limits (cursor.getD [])) =
      .ok ⟨fromRoot, toHex.map fun _ => toRoot, limits.maxRecords, limits.maxBytes,
        before.getLast?.map fun d => ⟨fromRoot, toRoot, keyOf d⟩⟩ := by
  have htarget : (if (toHex.elim zeroRoot fun _ => toRoot) ≠ zeroRoot then
      some (toHex.elim zeroRoot fun _ => toRoot) else none) = toHex.map fun _ => toRoot := by
    cases toHex with
    | none => exact if_neg (not_not.2 rfl)
    | some hex => exact if_pos hzero
  have hlen := @length_issued fromRoot toRoot _ hvalid
  rw [← h.cursor_eq] at hlen
  have hdecode := @decodeRequest_body fromRoot (cursor.getD []) (serverLimits limits hbounded)
    (toHex.elim zeroRoot fun _ => toRoot) (before.getLast?.map fun d => ⟨fromRoot, toRoot, keyOf d⟩) hlen
  rw [htarget] at hdecode
  apply hdecode
  rw [h.cursor_eq, issued]
  cases hlast : before.getLast? with
  | none => rfl
  | some d =>
    have hd := hvalid d (mem_of_getLast? hlast)
    have hsome : (toHex.map fun _ => toRoot) = some toRoot := by
      cases hhex : toHex with
      | some hex => rfl
      | none =>
        rw [h.pinned hhex] at hlast
        cases hlast
    have hpos : (cursorBytes fromRoot toRoot (keyOf d)).length ≠ 0 := by
      rw [cursorBytes_length, cursorFixedBytes]
      omega
    rw [Option.map_some, Option.getD_some, requestCursor, if_neg hpos, decodeCursor_cursorBytes hd, hsome]
    simp [orElse, reject]

theorem startOf_getLast (hsorted : Sorted leftKey (before ++ rest)) :
    startOf (before ++ rest) (before.getLast?.map fun d => ⟨fromRoot, toRoot, keyOf d⟩) =
      .ok before.length := by
  cases hlast : before.getLast? with
  | none =>
    rw [getLast?_eq_none_iff.1 hlast]
    rfl
  | some d => exact startOf_keyOf hsorted hlast

theorem sorted_paths (h : sortAndValidateDeltas given = .ok deltas) :
    Sorted (fun d => byteOrder d.path) deltas := by
  simp only [sortAndValidateDeltas, bind_eq_ok, exists_unit, reject_eq_ok, pure_eq_ok] at h
  obtain ⟨-, hdistinct, horder, rfl⟩ := h
  rw [anyPair_eq_false] at hdistinct horder
  have : IsTrans FileDelta fun a b => byteOrder a.path < byteOrder b.path := ⟨fun _ _ _ => lt_trans⟩
  rw [Sorted, ← isChain_iff_pairwise, isChain_iff_getElem]
  intro i hi
  have hne := isChain_iff_getElem.1 hdistinct i hi
  have hlt := isChain_iff_getElem.1 horder i hi
  generalize (sortBy leftKey given)[i] = a at hne hlt ⊢
  generalize (sortBy leftKey given)[i + 1] = b at hne hlt ⊢
  rw [decide_eq_false_iff_not] at hne hlt
  have hpath : byteOrder a.path ≤ byteOrder b.path := by
    rcases Prod.Lex.lt_iff.1 (not_le.1 hlt) with hpath | ⟨heq, -⟩
    · exact hpath.le
    · exact heq.le
  apply lt_of_le_of_ne hpath
  intro heq
  exact hne (asBytes_inj.1 (map_injective_iff.2 (fun _ _ h => UInt8.toNat_inj.1 h) heq))

theorem answer_requestBytes (h : Asking fromRoot toRoot before fromHex toHex cursor)
    (hzero : toRoot ≠ zeroRoot) (hsorted : Sorted leftKey (before ++ rest))
    (hvalid : ∀ d ∈ before ++ rest, validateDelta d = .ok ()) (hbounded : boundedLimits limits = true) :
    ∃ taken left, rest = taken ++ left ∧ (taken = [] → left = []) ∧ taken.length ≤ limits.maxRecords ∧
      pageHeaderBytes + (cursorAfter fromRoot toRoot [] taken left).length +
        (taken.flatMap recordBytes).length ≤ limits.maxBytes ∧
      answer fromRoot toRoot (before ++ rest)
        (requestBytes fromRoot (toHex.elim zeroRoot fun _ => toRoot) limits (cursor.getD [])) = .ok
          ⟨pageBytes fromRoot toRoot taken.length (cursorAfter fromRoot toRoot [] taken left)
            (taken.flatMap recordBytes), taken.length, !left.isEmpty⟩ := by
  have hbefore : ∀ d ∈ before, validateDelta d = .ok () := fun d hd => hvalid d (mem_append_left _ hd)
  have hdecode := decodeRequest_requestBytes h hzero hbefore hbounded
  have hto : ∀ root ∈ toHex.map fun _ => toRoot, root = toRoot := by
    intro root hroot
    obtain ⟨_, -, rfl⟩ := Option.mem_map.1 hroot
    rfl
  have hroots : ∀ c ∈ before.getLast?.map fun d => (⟨fromRoot, toRoot, keyOf d⟩ : DiffCursor),
      c.fromRoot = fromRoot ∧ c.toRoot = toRoot := by
    intro c hc
    obtain ⟨_, -, rfl⟩ := Option.mem_map.1 hc
    exact ⟨rfl, rfl⟩
  have hstart := @startOf_getLast fromRoot toRoot before rest hsorted
  generalize before.getLast?.map (fun d => (⟨fromRoot, toRoot, keyOf d⟩ : DiffCursor)) = decoded at hdecode hroots hstart
  obtain ⟨taken, left, hdrop, hprogress, hsize, hpage⟩ := @encodePage_of_start fromRoot toRoot
    ⟨fromRoot, toHex.map fun _ => toRoot, limits.maxRecords, limits.maxBytes, decoded⟩ _ _ hvalid rfl hto hroots
    (serverLimits limits hbounded).records_pos (serverLimits limits hbounded).bytes_ge
    (serverLimits limits hbounded).bytes_le hstart
  rw [drop_left] at hdrop
  refine ⟨taken, left, hdrop, hprogress, recordCount_le hpage, hsize, ?_⟩
  rw [answer, hdecode]
  exact hpage

theorem readAs_eq_deltaOf : readAs d = deltaOf d ↔ BomFree d.path ∧ BomFree d.oldPath := by
  rw [← dropBom_eq_self, ← dropBom_eq_self]
  cases d with
  | renamed => simp [readAs, deltaOf, deltaWith, FileDelta.path, FileDelta.oldPath]
  | added =>
    have hempty : dropBom "" = "" := rfl
    simp [readAs, deltaOf, deltaWith, FileDelta.path, FileDelta.oldPath, hempty]
  | modified =>
    have hempty : dropBom "" = "" := rfl
    simp [readAs, deltaOf, deltaWith, FileDelta.path, FileDelta.oldPath, hempty]
  | deleted =>
    have hempty : dropBom "" = "" := rfl
    simp [readAs, deltaOf, deltaWith, FileDelta.path, FileDelta.oldPath, hempty]

theorem decodeDiffPage_zeroRoot {count next} :
    decodeDiffPage (pageBytes fromRoot zeroRoot count next records) fromHex toHex cursor limits ≠ .ok page := by
  intro h
  have h0 : (pageBytes fromRoot zeroRoot count next records).drop 0 = pageMagic ++ _ := rfl
  have h4 := drop_add_of_drop (n := 4) h0 (by decide)
  have h36 := drop_add_of_drop h4 fromRoot.property
  simp only [decodeDiffPage, take_of_drop h36 zeroRoot.property, bind_eq_ok, exists_unit, reject_eq_ok] at h
  obtain ⟨-, -, -, -, -, -, hzero, -⟩ := h
  exact absurd rfl (all_zero_eq_false.1 hzero)

/-- A page means the same on both sides where no path of it starts with a byte order mark. -/
theorem diff_pages_agree_iff (given deltas : List FileDelta) (hsort : sortAndValidateDeltas given = .ok deltas)
    (hnumbers : ∀ d ∈ deltas, SafeNumbers d) (fromRoot toRoot : FileHash) (before rest : List FileDelta)
    (hdeltas : deltas = before ++ rest) (fromHex : String) (toHex : Option String) (cursor : Option Bytes)
    (hasks : Asking fromRoot toRoot before fromHex toHex cursor) (limits : DiffPageLimits)
    (hbounded : boundedLimits limits = true) (hlimit : limits.maxPathBytes = maxPathBytes) :
    (toRoot ≠ zeroRoot → ∃ request page, encodeDiffPageRequest fromHex toHex cursor limits = .ok request ∧
      decodeRequest request = .ok ⟨fromRoot, toHex.map fun _ => toRoot, limits.maxRecords, limits.maxBytes,
        before.getLast?.map fun d => ⟨fromRoot, toRoot, keyOf d⟩⟩ ∧
      answer fromRoot toRoot deltas request = .ok page) ∧
    ∀ request page, encodeDiffPageRequest fromHex toHex cursor limits = .ok request →
      answer fromRoot toRoot deltas request = .ok page →
      (decodeDiffPage page.bytes fromHex toHex cursor limits =
        .ok ⟨hashToHex fromRoot, hashToHex toRoot, (rest.take page.recordCount).map deltaOf,
          if page.hasMore then issued fromRoot toRoot (before ++ rest.take page.recordCount) else none,
          page.bytes.length⟩ ↔
        toRoot ≠ zeroRoot ∧ (∀ d ∈ before.getLast?, Readable d.path d.oldPath) ∧
          ∀ d ∈ rest.take page.recordCount, BomFree d.path ∧ BomFree d.oldPath) := by
  subst hdeltas
  obtain ⟨-, hsorted, hvalid⟩ := sortAndValidateDeltas_spec hsort
  have hbefore : ∀ d ∈ before, validateDelta d = .ok () := fun d hd => hvalid d (mem_append_left _ hd)
  have hpaths := sorted_paths hsort
  have hencode := encodeDiffPageRequest_eq hasks hbefore hbounded
  by_cases hzero : toRoot = zeroRoot
  · refine ⟨fun h => absurd hzero h, ?_⟩
    intro request page _ hanswer
    obtain ⟨_, taken, left, -, hbytes, -, -⟩ := answer_eq_ok hsorted hvalid hanswer
    subst hzero
    rw [hbytes]
    exact iff_of_false decodeDiffPage_zeroRoot fun h => h.1 rfl
  · have hdecode := decodeRequest_requestBytes hasks hzero hbefore hbounded
    obtain ⟨taken, left, rfl, hprogress, hcount, hsize, hpage⟩ :=
      answer_requestBytes hasks hzero hsorted hvalid hbounded
    refine ⟨fun _ => ⟨_, _, hencode, hdecode, hpage⟩, ?_⟩
    intro request page hrequest hanswer
    cases hencode.symm.trans hrequest
    cases hpage.symm.trans hanswer
    rw [← append_assoc] at hvalid hpaths hnumbers
    have hto : ∀ hex ∈ toHex, toLowerCase hex = hexEncode toRoot.val := fun hex hhex =>
      toLowerCase_of_rootFromHex (hasks.target hex hhex)
    have hrun := fun page => @decodeDiffPage_run limits fromRoot toRoot taken left before fromHex toHex page hbounded
      hlimit (toLowerCase_of_rootFromHex hasks.source) hto
      (fun d hd => hvalid d (mem_append_left _ hd)) (pairwise_append.1 hpaths).1
      (fun d hd => hnumbers d (mem_append_left _ (mem_append_right _ hd))) hprogress hcount hsize
    have hmore : (if (!left.isEmpty) = true then issued fromRoot toRoot (before ++ taken) else none) =
        if left = [] then none else issued fromRoot toRoot (before ++ taken) := by
      cases left <;> rfl
    have hread : ∀ d ∈ taken, BomFree d.path ∧ BomFree d.oldPath → Readable d.path d.oldPath := fun d hd hfree =>
      readable_of_bomFree (hvalid d (mem_append_left _ (mem_append_right _ hd))) hfree.1 hfree.2
    rw [take_left, hasks.cursor_eq, hrun, length_pageBytes, hmore]
    constructor
    · rintro ⟨hzero, hprevious, -, heq⟩
      have hdeltas := congrArg Page.deltas heq
      refine ⟨hzero, hprevious, fun d hd => readAs_eq_deltaOf.1 ?_⟩
      exact (map_inj_left.1 hdeltas d hd).symm
    · rintro ⟨hzero, hprevious, hfree⟩
      refine ⟨hzero, hprevious, fun d hd => hread d hd (hfree d hd), ?_⟩
      have hdeltas : taken.map readAs = taken.map deltaOf :=
        map_inj_left.2 fun d hd => readAs_eq_deltaOf.2 (hfree d hd)
      rw [hdeltas]
      rfl

end Requests

def markedName : String := String.ofList (byteOrderMark :: "a.md".toList)

def desktopLimits : DiffPageLimits := ⟨maxPageBytes, maxPageRecords, maxPathBytes⟩

/-- The file with the mark in its name comes out as another file, and a move between the two is
refused. -/
theorem marked_name_reads_as_another :
    sortAndValidateDeltas [.added markedName (rootOf 7) 1 1] = .ok [.added markedName (rootOf 7) 1 1] ∧
    sortAndValidateDeltas [.renamed "a.md" markedName (rootOf 7) 1 1] =
      .ok [.renamed "a.md" markedName (rootOf 7) 1 1] ∧
    (do
      let request ← encodeDiffPageRequest (hashToHex (rootOf 1)) none none desktopLimits
      let page ← answer (rootOf 1) (rootOf 2) [.added markedName (rootOf 7) 1 1] request
      let read ← decodeDiffPage page.bytes (hashToHex (rootOf 1)) none none desktopLimits
      return read.deltas) = .ok [.added "a.md" (hashToHex (rootOf 7)) 1 1] ∧
    (do
      let request ← encodeDiffPageRequest (hashToHex (rootOf 1)) none none desktopLimits
      let page ← answer (rootOf 1) (rootOf 2) [.renamed "a.md" markedName (rootOf 7) 1 1] request
      let read ← decodeDiffPage page.bytes (hashToHex (rootOf 1)) none none desktopLimits
      return read.deltas) = .error ⟨"diff record 0 renames a path onto itself"⟩ ∧
    markedName ≠ "a.md" := by
  decide +kernel

theorem diff_pages_agree_notes : sortAndValidateDeltas notes = .ok notes ∧ ∃ request page,
      encodeDiffPageRequest (hashToHex (rootOf 1)) none none desktopLimits = .ok request ∧
      answer (rootOf 1) (rootOf 2) notes request = .ok page ∧
      decodeDiffPage page.bytes (hashToHex (rootOf 1)) none none desktopLimits =
        .ok ⟨hashToHex (rootOf 1), hashToHex (rootOf 2), (notes.take page.recordCount).map deltaOf,
          if page.hasMore then issued (rootOf 1) (rootOf 2) (notes.take page.recordCount) else none,
          page.bytes.length⟩ := by
  have hsort : sortAndValidateDeltas notes = .ok notes := by decide +kernel
  have hnumbers : ∀ d ∈ notes, SafeNumbers d := by
    simp [notes, SafeNumbers, contentOf, maxSafeInteger]
  have hasks : Asking (rootOf 1) (rootOf 2) [] (hashToHex (rootOf 1)) none none :=
    ⟨Pull.rootFromHex_hexEncode _, by rintro _ ⟨⟩, fun _ => rfl, rfl⟩
  have hfree : ∀ d ∈ notes, BomFree d.path ∧ BomFree d.oldPath := by decide +kernel
  obtain ⟨hrequest, hpages⟩ := diff_pages_agree_iff notes notes hsort hnumbers (rootOf 1) (rootOf 2) [] notes rfl
    _ _ _ hasks desktopLimits (by decide) rfl
  obtain ⟨request, page, hencode, -, hanswer⟩ := hrequest (by decide)
  refine ⟨hsort, request, page, hencode, hanswer, ?_⟩
  exact (hpages request page hencode hanswer).2 ⟨by decide, by rintro _ ⟨⟩, fun d hd => hfree d (mem_of_mem_take hd)⟩

end Obsetync.DiffPage.Plugin

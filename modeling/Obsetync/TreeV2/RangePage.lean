import Obsetync.TreeV2.Exact
import Obsetync.TreeV2.RoundTrip
import Obsetync.TreeV2.Canonical

namespace Obsetync.TreeV2
open Fallible Keyed List

def maxPageEntries : Nat := 8192

def beyond (afterPath : Option String) (path : String) : Bool :=
  !afterPath.any fun cursor => path ≤ cursor

/-- The loop over the entries of one leaf, and whether it ended the page. -/
def pushPage (afterPath : Option String) (maxEntries : Nat) : List FileEntry → List FileEntry →
    List FileEntry × Bool
  | [], output => (output, false)
  | entry :: rest, output =>
    if !beyond afterPath entry.path then pushPage afterPath maxEntries rest output
    else if (output ++ [entry]).length = maxEntries then (output ++ [entry], true)
    else pushPage afterPath maxEntries rest (output ++ [entry])

section

variable (hashBytes : Bytes → FileHash) (store : ChunkStore)

def pageLoop (afterPath : Option String) (maxEntries : Nat) : List RangeRef → TraversalBudget →
    List FileEntry → Except ChunkError (List FileEntry)
  | [], _, output => .ok output
  | range :: rest, budget, output =>
    if !beyond afterPath range.maxPath then pageLoop afterPath maxEntries rest budget output
    else do
      let (entries, budget) ← loadLeafSpan hashBytes store [range] budget
      let (output, full) := pushPage afterPath maxEntries entries output
      if full then return output else pageLoop afterPath maxEntries rest budget output

def rangePage (root : TreeV2Root) (afterPath : Option String) (maxEntries : Nat) :
    Except ChunkError (List FileEntry) := do
  reject (maxEntries = 0 || maxPageEntries < maxEntries) "Tree v2 range page limit is invalid"
  afterPath.toList.forM validatePath
  let (leaves, budget) ← collectLeafRefs hashBytes store root ⟨0, 0⟩
  pageLoop hashBytes store afterPath maxEntries leaves budget []

/-- A reader that asks for pages of the given sizes, each behind the last path it got. -/
def readPages (root : TreeV2Root) : List Nat → Option String → Except ChunkError (List (List FileEntry))
  | [], _ => .ok []
  | size :: sizes, cursor => do
    let page ← rangePage hashBytes store root cursor size
    let pages ← readPages root sizes ((page.getLast?.map FileEntry.path).or cursor)
    return page :: pages

end

def portions {α : Type} : List Nat → List α → List (List α)
  | [], _ => []
  | size :: sizes, l => l.take size :: portions sizes (l.drop size)

variable {hashBytes : Bytes → FileHash} {store : ChunkStore} {root : TreeV2Root}
  {afterPath : Option String} {maxEntries : Nat} {entries output : List FileEntry}

theorem pushPage_spec (h : output.length < maxEntries) :
    pushPage afterPath maxEntries entries output =
      ((output ++ entries.filter fun e => beyond afterPath e.path).take maxEntries,
        decide (maxEntries ≤ (output ++ entries.filter fun e => beyond afterPath e.path).length)) := by
  induction entries generalizing output with
  | nil =>
    rw [pushPage, filter_nil, append_nil, take_of_length_le h.le, decide_eq_false (Nat.not_le.2 h)]
  | cons entry rest ih =>
    rw [pushPage]
    cases hb : beyond afterPath entry.path with
    | false =>
      rw [Bool.not_false, if_pos rfl, ih h, filter_cons_of_neg (by simp [hb])]
    | true =>
      have hsplit : output ++ (entry :: rest).filter (fun e => beyond afterPath e.path) =
          (output ++ [entry]) ++ rest.filter fun e => beyond afterPath e.path := by
        rw [filter_cons_of_pos (by exact hb), append_assoc, singleton_append]
      rw [Bool.not_true, if_neg Bool.false_ne_true, hsplit]
      by_cases hfull : (output ++ [entry]).length = maxEntries
      · rw [if_pos hfull, ← hfull, take_left, @List.length_append _ (output ++ [entry]),
          decide_eq_true (Nat.le_add_right _ _)]
      · have hlen : (output ++ [entry]).length = output.length + 1 := by simp
        rw [if_neg hfull, ih (by omega)]

theorem leaf_of_loadNode {range} (h : loadNode hashBytes store range = .ok (.leaf entries)) :
    validateEntries entries = .ok () ∧ ∀ e ∈ entries, e.path ≤ range.maxPath := by
  obtain ⟨-, bytes, -, -, -, hdec, hdesc⟩ := decodeNode_of_loadNode h
  obtain ⟨-, ⟨entries', heq, -, -, hvalid⟩ | ⟨childHeight, children, heq, -⟩⟩ := decodeNode_cases hdec
  · cases heq
    refine ⟨hvalid, fun e he => ?_⟩
    simp only [validateDescriptorForNode, bind_eq_ok, exists_unit, reject_eq_ok,
      Bool.not_eq_false', Bool.and_eq_true, decide_eq_true_eq] at hdesc
    obtain ⟨-, ⟨⟨⟨-, hlast⟩, -⟩, -⟩, -⟩ := hdesc
    obtain ⟨last, hmem, hmax⟩ := Option.map_eq_some_iff.1 hlast
    rw [← hmax]
    obtain ⟨front, rfl⟩ := getLast?_eq_some_iff.1 hmem
    rcases mem_append.1 he with he | he
    · have hsort := (validateEntries_eq_ok.1 hvalid).2.2
      exact ((pairwise_append.1 hsort).2.2 e he last mem_cons_self).le
    · rw [mem_singleton.1 he]
  · cases heq

theorem loadLeafSpan_one {range} (hv : validateRange range = .ok ()) (hz : range.height = 0)
    (h : loadNode hashBytes store range = .ok (.leaf entries))
    (hn : budget.nodes + 1 ≤ maxVisitedNodes)
    (he : budget.entries + entries.length ≤ maxLoadedEntries) :
    loadLeafSpan hashBytes store [range] budget =
      .ok (entries, ⟨budget.nodes + 1, budget.entries + entries.length⟩) := by
  simp only [loadLeafSpan, bind_eq_ok, exists_unit, pure_eq_ok, forM_eq_ok, forall_mem_singleton,
    reject_eq_ok, decide_eq_false_iff_not, not_not, loadLeaves]
  refine ⟨⟨hv, hz⟩, (entries, ⟨budget.nodes + 1, budget.entries + entries.length⟩), ?_,
    (leaf_of_loadNode h).1, rfl⟩
  exact ⟨_, loadLeaf_eq_ok.2 ⟨h, hn, he, rfl⟩, _, rfl, by rw [append_nil]⟩

theorem beyond_some : beyond (some cursor) path = true ↔ cursor < path := by
  simp only [beyond, Option.any_some, Bool.not_eq_true', decide_eq_false_iff_not, not_le]

theorem beyond_mono (h : path ≤ path') (hb : beyond afterPath path' = false) :
    beyond afterPath path = false := by
  cases afterPath with
  | none => cases hb
  | some cursor =>
    simp only [beyond, Option.any_some, Bool.not_eq_false', decide_eq_true_eq] at hb ⊢
    exact h.trans hb

theorem pageLoop_spec (hd : Denotes hashBytes store leaves leaves entries leaves.length)
    (hv : ∀ r ∈ leaves, r.height = 0 ∧ validateRange r = .ok ())
    (hn : budget.nodes + leaves.length ≤ maxVisitedNodes)
    (he : budget.entries + entries.length ≤ maxLoadedEntries) (hlen : output.length < maxEntries) :
    pageLoop hashBytes store afterPath maxEntries leaves budget output =
      .ok ((output ++ entries.filter fun e => beyond afterPath e.path).take maxEntries) := by
  induction leaves generalizing entries budget output with
  | nil =>
    cases hd
    rw [pageLoop, filter_nil, append_nil, take_of_length_le hlen.le]
  | cons range leaves ih =>
    obtain ⟨⟨hz, hrange⟩, hv'⟩ := forall_mem_cons.1 hv
    cases hd with
    | node hne => exact absurd hz hne
    | @leaf _ l _ _ es _ _ hload hd' =>
      obtain ⟨-, hle⟩ := leaf_of_loadNode hload
      simp only [length_cons, length_append] at hn he
      rw [pageLoop, filter_append]
      cases hb : beyond afterPath range.maxPath with
      | false =>
        have hnone : l.filter (fun e => beyond afterPath e.path) = [] := by
          rw [filter_eq_nil_iff]
          intro e hmem
          rw [beyond_mono (hle e hmem) hb]
          exact Bool.false_ne_true
        rw [Bool.not_false, if_pos rfl, hnone, nil_append]
        exact ih hd' hv' (by omega) (by omega) hlen
      | true =>
        rw [Bool.not_true, if_neg Bool.false_ne_true,
          loadLeafSpan_one hrange hz hload (by omega) (by omega)]
        change (if (pushPage afterPath maxEntries l output).2 = true then _ else _) = _
        rw [pushPage_spec hlen, ← append_assoc]
        by_cases hfull : maxEntries ≤ (output ++ l.filter fun e => beyond afterPath e.path).length
        · rw [if_pos (decide_eq_true hfull), take_append_of_le_length hfull]
          rfl
        · have hshort := Nat.not_le.1 hfull
          rw [if_neg (by rw [decide_eq_true_eq]; exact hfull)]
          simp only [take_of_length_le hshort.le]
          exact ih hd' hv' (by simp only; omega) (by simp only; omega) hshort

theorem rangePage_eq (h : loadAllEntries hashBytes store root = .ok entries)
    (hcursor : ∀ cursor ∈ afterPath, validatePath cursor = .ok ())
    (hpos : 0 < maxEntries) (hmax : maxEntries ≤ maxPageEntries) :
    rangePage hashBytes store root afterPath maxEntries =
      .ok ((entries.filter fun e => beyond afterPath e.path).take maxEntries) := by
  obtain ⟨hshape, ls, n, hd, hranges, hsum, hn, hvalid, -⟩ := loadAllEntries_eq_ok.1 h
  have hcollect := collectLeafRefs_of_denotes hshape hd hranges hsum (by omega)
  have hlen := (validateEntries_eq_ok.1 hvalid).1
  simp only [rangePage, bind_eq_ok, exists_unit, reject_eq_ok, forM_eq_ok, Bool.or_eq_false_iff,
    decide_eq_false_iff_not, not_lt]
  refine ⟨⟨hpos.ne', hmax⟩, fun cursor hmem => hcursor cursor (Option.mem_toList.1 hmem), _,
    hcollect, ?_⟩
  rw [pageLoop_spec hd.leaves (validateRanges_eq_ok.1 hranges).1 hn (by simpa using hlen) hpos,
    nil_append]

theorem flatten_portions (sizes : List Nat) (l : List α) :
    (portions sizes l).flatten = l.take sizes.sum := by
  induction sizes generalizing l with
  | nil => rfl
  | cons size sizes ih => rw [portions, flatten_cons, ih, sum_cons, take_add]

theorem getElem?_portions (h : (portions sizes l)[i]? = some page) :
    ∃ size, sizes[i]? = some size ∧ page = (l.drop (sizes.take i).sum).take size := by
  induction sizes generalizing l i with
  | nil => cases h
  | cons size sizes ih =>
    cases i with
    | zero =>
      rw [portions, getElem?_cons_zero, Option.some.injEq] at h
      exact ⟨size, rfl, h.symm⟩
    | succ i =>
      rw [portions, getElem?_cons_succ] at h
      obtain ⟨n, hn, hpage⟩ := ih h
      rw [drop_drop] at hpage
      exact ⟨n, hn, by rw [take_succ_cons, sum_cons, hpage]⟩

theorem filter_beyond_last (h : Sorted FileEntry.path (front ++ rest)) :
    ((front ++ rest).filter fun e => beyond (front.getLast?.map FileEntry.path) e.path) = rest := by
  cases hlast : front.getLast? with
  | none =>
    rw [getLast?_eq_none_iff] at hlast
    rw [hlast, nil_append]
    exact filter_eq_self.2 fun e _ => rfl
  | some last =>
    obtain ⟨init, rfl⟩ := getLast?_eq_some_iff.1 hlast
    have hle : ∀ e ∈ init ++ [last], e.path ≤ last.path := by
      intro e he
      rcases mem_append.1 he with he | he
      · have hinit := (pairwise_append.1 h).1
        exact ((pairwise_append.1 hinit).2.2 e he last mem_cons_self).le
      · rw [mem_singleton.1 he]
    have hlt : ∀ e ∈ rest, last.path < e.path :=
      (pairwise_append.1 h).2.2 last (mem_append_right _ mem_cons_self)
    rw [filter_append, filter_eq_nil_iff.2, nil_append, filter_eq_self.2]
    · intro e he
      exact beyond_some.2 (hlt e he)
    · intro e he hb
      exact (hle e he).not_gt (beyond_some.1 hb)

theorem readPages_eq {front rest : List FileEntry} {sizes : List Nat}
    (h : loadAllEntries hashBytes store root = .ok (front ++ rest))
    (hsizes : ∀ size ∈ sizes, 0 < size ∧ size ≤ maxPageEntries) :
    readPages hashBytes store root sizes (front.getLast?.map FileEntry.path) =
      .ok (portions sizes rest) := by
  obtain ⟨-, _, _, -, -, -, -, hvalid, -⟩ := loadAllEntries_eq_ok.1 h
  obtain ⟨-, hpaths, hsort⟩ := validateEntries_eq_ok.1 hvalid
  induction sizes generalizing front rest with
  | nil => rfl
  | cons size sizes ih =>
    obtain ⟨⟨hpos, hmax⟩, hrest⟩ := forall_mem_cons.1 hsizes
    have hcursor : ∀ cursor ∈ front.getLast?.map FileEntry.path, validatePath cursor = .ok () := by
      intro cursor hmem
      obtain ⟨last, hlast, rfl⟩ := Option.map_eq_some_iff.1 (Option.mem_def.1 hmem)
      exact hpaths last (mem_append_left _ (mem_of_getLast? hlast))
    have hpage := rangePage_eq h hcursor hpos hmax
    rw [filter_beyond_last hsort] at hpage
    have hnext : ((rest.take size).getLast?.map FileEntry.path).or
        (front.getLast?.map FileEntry.path) =
        (front ++ rest.take size).getLast?.map FileEntry.path := by
      rw [getLast?_append]
      cases (rest.take size).getLast? <;> rfl
    have hsplit : front ++ rest.take size ++ rest.drop size = front ++ rest := by
      rw [append_assoc, take_append_drop]
    have hpages := ih
      (by rw [hsplit]; exact h) hrest (by rw [hsplit]; exact hvalid) (by rw [hsplit]; exact hpaths)
      (by rw [hsplit]; exact hsort)
    rw [readPages, hpage]
    change (readPages hashBytes store root sizes _ >>= _) = _
    rw [hnext, hpages]
    rfl

/-- In a tree that loads: a page starts at the first path behind the cursor and goes on without a
gap, and pages of any sizes, each behind the last path of the one before, deal out the entries in
order until an empty page says that none is left. -/
theorem range_pages (h : loadAllEntries hashBytes store root = .ok entries) :
    (∀ afterPath size, (∀ cursor ∈ afterPath, validatePath cursor = .ok ()) → 0 < size →
      size ≤ maxPageEntries → ∃ page, rangePage hashBytes store root afterPath size = .ok page ∧
        page = (entries.filter fun e => beyond afterPath e.path).take size ∧
        (∀ e ∈ page.head?, e ∈ entries ∧ beyond afterPath e.path = true ∧
          ∀ e' ∈ entries, beyond afterPath e'.path = true → e.path ≤ e'.path) ∧
        (page = [] → ∀ e ∈ entries, beyond afterPath e.path = false)) ∧
    (∀ sizes, (∀ size ∈ sizes, 0 < size ∧ size ≤ maxPageEntries) →
      ∃ pages, readPages hashBytes store root sizes none = .ok pages ∧
        pages.flatten = entries.take sizes.sum ∧
        ∀ i page, pages[i]? = some page → (page = [] ↔ entries.length ≤ (sizes.take i).sum)) ∧
    (∀ afterPath size, size = 0 ∨ maxPageEntries < size ∨
        (∃ cursor ∈ afterPath, validatePath cursor ≠ .ok ()) →
      ∀ page, rangePage hashBytes store root afterPath size ≠ .ok page) := by
  obtain ⟨-, _, _, -, -, -, -, hvalid, -⟩ := loadAllEntries_eq_ok.1 h
  have hsort := (validateEntries_eq_ok.1 hvalid).2.2
  refine ⟨fun afterPath size hcursor hpos hmax =>
    ⟨_, rangePage_eq h hcursor hpos hmax, rfl, ?_, ?_⟩, fun sizes hsizes => ?_, ?_⟩
  · intro first hfirst
    have hhead : (entries.filter fun e => beyond afterPath e.path).head? = some first := by
      rw [Option.mem_def, head?_take, if_neg hpos.ne'] at hfirst
      exact hfirst
    obtain ⟨rest, hrest⟩ := head?_eq_some_iff.1 hhead
    have hmem := mem_filter.1 (hrest ▸ mem_cons_self :
      first ∈ entries.filter fun e => beyond afterPath e.path)
    refine ⟨hmem.1, hmem.2, fun e he hb => ?_⟩
    have hfilter := hsort.filter fun e => beyond afterPath e.path
    have hin : e ∈ entries.filter fun e => beyond afterPath e.path := mem_filter.2 ⟨he, hb⟩
    rw [hrest] at hfilter hin
    rcases mem_cons.1 hin with rfl | hin
    · exact le_refl _
    · exact ((pairwise_cons.1 hfilter).1 e hin).le
  · intro hnil e he
    rw [take_eq_nil_iff, or_iff_right hpos.ne', filter_eq_nil_iff] at hnil
    exact Bool.eq_false_iff.2 (hnil e he)
  · have hpages := (@readPages_eq _ _ _ []) h hsizes
    refine ⟨_, hpages, flatten_portions sizes entries, fun i page hi => ?_⟩
    obtain ⟨size, hsize, rfl⟩ := getElem?_portions hi
    have hpos := (hsizes size (mem_of_getElem? hsize)).1
    rw [take_eq_nil_iff, or_iff_right hpos.ne', drop_eq_nil_iff]
  · intro afterPath size hbad page hpage
    simp only [rangePage, bind_eq_ok, exists_unit, reject_eq_ok, forM_eq_ok,
      Bool.or_eq_false_iff, decide_eq_false_iff_not, not_lt] at hpage
    obtain ⟨⟨hpos, hmax⟩, hcursor, -⟩ := hpage
    rcases hbad with hz | hlarge | ⟨cursor, hmem, hinvalid⟩
    · exact hpos hz
    · exact absurd hmax (Nat.not_le.2 hlarge)
    · exact hinvalid (hcursor cursor (Option.mem_toList.2 hmem))

def single : FileEntry := ⟨"note.md", lengthHash [], 1, 2⟩

theorem single_loads : ∃ root store, loadAllEntries lengthHash store root = .ok [single] := by
  have hvalid : validateEntries (sortBy FileEntry.path [single]) = .ok () := by
    decide +kernel
  have hone : (buildTree lengthHash [single]).map (·.2.length) = .ok 1 := by decide +kernel
  obtain ⟨root, chunks, hbuild, -, hload⟩ := loadAllEntries_buildTree hvalid
  rw [hbuild] at hone
  obtain ⟨chunk, rfl⟩ := length_eq_one_iff.1 (Except.ok.inj hone)
  refine ⟨root, ⟨fun _ => .ok chunk⟩, hload _ fun c hc => ?_⟩
  rw [mem_singleton.1 hc]

theorem range_pages_single : ∃ root store, loadAllEntries lengthHash store root = .ok [single] ∧
      ∃ pages, readPages lengthHash store root [1, 1] none = .ok pages ∧
        pages.flatten = [single] := by
  obtain ⟨root, store, hload⟩ := single_loads
  obtain ⟨-, hpages, -⟩ := range_pages hload
  obtain ⟨pages, hread, hflat, -⟩ := hpages [1, 1] (by decide)
  exact ⟨root, store, hload, pages, hread, hflat⟩

/-- A cursor in front of every path that is no path itself is refused, and so is a page of no
entries. -/
theorem cursor_refused :
    ∃ root store, loadAllEntries lengthHash store root = .ok [single] ∧ "/" < single.path ∧
      rangePage lengthHash store root (some "/") 1 =
        .error (invalid "Tree v2 path length is invalid") ∧
      rangePage lengthHash store root none 0 =
        .error (invalid "Tree v2 range page limit is invalid") := by
  obtain ⟨root, store, hload⟩ := single_loads
  have hcursor : (some "/").toList.forM validatePath =
      .error (invalid "Tree v2 path length is invalid") := by
    decide +kernel
  refine ⟨root, store, hload, by decide +kernel, ?_, rfl⟩
  rw [rangePage, hcursor]
  rfl

end Obsetync.TreeV2

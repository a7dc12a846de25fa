import Obsetync.Pack.Segment

namespace Obsetync.Pack
open Wire Fallible Keyed List

structure ActiveSegment where
  id : Nat
  file : Bytes
  len : Nat
  entries : List IndexEntry

/-- The index, the segment that is written to, and what else is on the disk. -/
structure PackStore where
  index : List (ObjectKey × RecordLocation)
  sidecars : List (Nat × Bytes)
  older : List ActiveSegment
  active : ActiveSegment

def PackStore.segments (store : PackStore) : List ActiveSegment := store.older ++ [store.active]

inductive Stage
  | write
  | rollback
  | sync
  | sidecar
  | create

/-- The steps that fail, and what a write that fails leaves after the segment. -/
structure Disk where
  fails : Stage → Option String
  tail : Bytes

def Disk.attempt (disk : Disk) (stage : Stage) : Except String Unit :=
  match disk.fails stage with
  | none => .ok ()
  | some error => .error error

def createActiveSegment (segmentId : Nat) : ActiveSegment :=
  ⟨segmentId, segmentHeader segmentId, segmentHeaderBytes, []⟩

def PackStore.empty (segmentId : Nat) : PackStore := ⟨[], [], [], createActiveSegment segmentId⟩

def publishEntries : List (ObjectKey × RecordLocation) → List IndexEntry → List (ObjectKey × RecordLocation) :=
  insertAll IndexEntry.location

def currentEntriesForSegment (index : List (ObjectKey × RecordLocation)) (segmentId : Nat) : List IndexEntry :=
  (index.filter (·.2.segmentId = segmentId)).map fun (key, location) => ⟨key, location⟩

/-- An error comes with the store that it leaves behind. -/
abbrev Change := Except (String × PackStore) PackStore

def leaving {α : Type} (store : PackStore) (x : Except String α) : Except (String × PackStore) α :=
  x.mapError (·, store)

def sealActive (env : Env) (disk : Disk) (store : PackStore) : Change := do
  let active := store.active
  let sidecar ← leaving store do
    disk.attempt .sidecar
    writeSidecar env active.id active.len (currentEntriesForSegment store.index active.id)
  let stored := { store with sidecars := Assoc.set store.sidecars active.id sidecar }
  leaving stored do
    reject (2 ^ 64 ≤ active.id + 1) "segment id overflow"
    disk.attempt .create
  return { stored with older := store.older ++ [active], active := createActiveSegment (active.id + 1) }

def writeGroup (segmentId : Nat) : Nat → List PackedObject → Except String (Bytes × List IndexEntry × Nat)
  | offset, [] => .ok ([], [], offset)
  | offset, object :: objects => do
    let next := offset + (recordBytes object).length
    reject (2 ^ 64 ≤ next) "record offset overflow"
    let (bytes, entries, len) ← writeGroup segmentId next objects
    return (recordBytes object ++ bytes, entryAt segmentId offset object :: entries, len)

def overwrite (file : Bytes) (offset : Nat) (bytes : Bytes) : Bytes :=
  file.take offset ++ bytes ++ file.drop (offset + bytes.length)

def rollbackSegment (disk : Disk) (store : PackStore) (written : ActiveSegment) (message : String) : Change :=
  match disk.fails .rollback with
  | some error => .error (error, { store with active := written })
  | none => .error (message, { store with
      active := { store.active with file := written.file.take store.active.len } })

def appendGroup (env : Env) (disk : Disk) (store : PackStore) (objects : List PackedObject) : Change :=
  if objects = [] then .ok store else do
    let active := store.active
    leaving store (objects.forM (validateObject env))
    let torn := { active with file := overwrite active.file active.len disk.tail }
    let (bytes, entries, len) ← leaving { store with active := torn } do
      disk.attempt .write
      writeGroup active.id active.len objects
    let written := { active with file := overwrite active.file active.len bytes, len := len }
    if maxSegmentBytes < len then
      rollbackSegment disk store written "active segment exceeds hard byte limit"
    else if maxSegmentObjects < active.entries.length + entries.length then
      rollbackSegment disk store written "active segment exceeds hard object limit"
    else do
      leaving { store with active := written } (disk.attempt .sync)
      let extended := { written with entries := active.entries ++ entries }
      let published := { store with index := publishEntries store.index entries, active := extended }
      if segmentTargetBytes ≤ len ∨ segmentObjectTarget ≤ extended.entries.length then
        sealActive env disk published
      else return published

section Run

variable {env : Env} {disk : Disk} {store store' : PackStore} {segment : ActiveSegment}
  {objects more : List PackedObject}

theorem leaving_eq_ok : leaving store x = .ok a ↔ x = .ok a := by
  cases x <;> simp [leaving, Except.mapError]

theorem entriesFrom_append :
    entriesFrom segmentId offset (objects ++ more) = entriesFrom segmentId offset objects ++
      entriesFrom segmentId (offset + (objects.flatMap recordBytes).length) more := by
  induction objects generalizing offset with
  | nil => rfl
  | cons object objects ih =>
    rw [cons_append, entriesFrom, entriesFrom, ih, flatMap_cons, length_append, Nat.add_assoc]
    rfl

theorem keys_entriesFrom :
    (entriesFrom segmentId offset objects).map IndexEntry.key = objects.map PackedObject.toObjectKey := by
  induction objects generalizing offset with
  | nil => rfl
  | cons object objects ih => rw [entriesFrom, map_cons, ih, map_cons, entryAt]

theorem length_entriesFrom : (entriesFrom segmentId offset objects).length = objects.length := by
  rw [← length_map IndexEntry.key, keys_entriesFrom, length_map]

theorem writeGroup_eq_ok (h : writeGroup segmentId offset objects = .ok (bytes, entries, len)) :
    bytes = objects.flatMap recordBytes ∧ entries = entriesFrom segmentId offset objects ∧
      len = offset + (objects.flatMap recordBytes).length := by
  induction objects generalizing offset bytes entries len with
  | nil =>
    cases h
    exact ⟨rfl, rfl, rfl⟩
  | cons object objects ih =>
    obtain ⟨⟨⟩, -, h⟩ := bind_eq_ok.1 h
    obtain ⟨⟨bytes', entries', len'⟩, hrest, h⟩ := bind_eq_ok.1 h
    obtain ⟨rfl, rfl, rfl⟩ := ih hrest
    cases h
    exact ⟨rfl, rfl, by rw [flatMap_cons, length_append, Nat.add_assoc]⟩

/-- The segment holds these objects and nothing else. -/
structure Filled (env : Env) (segment : ActiveSegment) (objects : List PackedObject) : Prop where
  id : segment.id < 2 ^ 64
  file : segment.file = segmentHeader segment.id ++ objects.flatMap recordBytes
  len : segment.len = segment.file.length
  entries : segment.entries = entriesFrom segment.id segmentHeaderBytes objects
  valid : ∀ object ∈ objects, validateObject env object = .ok ()
  bytes : segment.len ≤ maxSegmentBytes
  count : objects.length ≤ maxSegmentObjects

theorem length_segmentHeader (segmentId : Nat) : (segmentHeader segmentId).length = segmentHeaderBytes := by
  have hmagic : segmentMagic.length = 4 := by decide
  simp only [segmentHeader, length_append, hmagic, leBytes_length, length_replicate,
    length_cons, length_nil, segmentHeaderBytes]

theorem filled_create (h : segmentId < 2 ^ 64) : Filled env (createActiveSegment segmentId) [] where
  id := h
  file := (append_nil _).symm
  len := (length_segmentHeader segmentId).symm
  entries := rfl
  valid := nofun
  bytes := (by decide : segmentHeaderBytes ≤ maxSegmentBytes)
  count := Nat.zero_le _

theorem Filled.len_eq (h : Filled env segment objects) :
    segment.len = segmentHeaderBytes + (objects.flatMap recordBytes).length := by
  rw [h.len, h.file, length_append, length_segmentHeader]

theorem Filled.length_entries (h : Filled env segment objects) : segment.entries.length = objects.length := by
  rw [h.entries, length_entriesFrom]

theorem length_le_flatMap (objects : List PackedObject) :
    objects.length ≤ (objects.flatMap recordBytes).length := by
  induction objects with
  | nil => rfl
  | cons object objects ih =>
    have hleast := le_recordLength object.bytes.length
    rw [recordHeaderBytes] at hleast
    rw [flatMap_cons, length_append, length_recordBytes, length_cons]
    omega


theorem Filled.scan (h : Filled env segment objects) (allow : Bool) :
    scanSegment env segment.file segment.id allow = .ok (segment.entries, segment.len) := by
  have hrest : segment.file.drop segmentHeaderBytes = objects.flatMap recordBytes := by
    rw [h.file, drop_left' (length_segmentHeader _)]
  have hfuel : objects.length ≤ segment.file.length := by
    rw [h.file, length_append]
    exact (length_le_flatMap objects).trans (Nat.le_add_left _ _)
  have hbytes := h.bytes
  rw [h.len] at hbytes
  rw [scanSegment, bind_eq_ok]
  refine ⟨(), reject_eq_ok.2 (not_lt.2 hbytes), ?_⟩
  rw [hrest, scanLoop_records h.valid hfuel (by rw [Nat.zero_add]; exact h.count), h.entries, h.len_eq]

theorem Filled.within (h : Filled env segment objects) (hentry : entry ∈ segment.entries) :
    Within segment.id segment.len entry := by
  rw [h.entries] at hentry
  exact within_entriesFrom h.valid le_rfl (by decide) h.len_eq.ge hentry

theorem Filled.extend (h : Filled env segment objects) (hvalid : ∀ object ∈ more, validateObject env object = .ok ())
    (hbytes : segment.len + (more.flatMap recordBytes).length ≤ maxSegmentBytes)
    (hcount : segment.entries.length + more.length ≤ maxSegmentObjects) :
    Filled env ⟨segment.id, overwrite segment.file segment.len (more.flatMap recordBytes),
      segment.len + (more.flatMap recordBytes).length,
      segment.entries ++ entriesFrom segment.id segment.len more⟩ (objects ++ more) := by
  have hfile : overwrite segment.file segment.len (more.flatMap recordBytes) =
      segment.file ++ more.flatMap recordBytes := by
    rw [overwrite, h.len, take_length, drop_eq_nil_of_le (Nat.le_add_right _ _), append_nil]
  refine ⟨h.id, ?_, ?_, ?_, ?_, hbytes, ?_⟩
  · rw [hfile, h.file, append_assoc, flatMap_append]
  · rw [hfile, length_append, h.len]
  · rw [entriesFrom_append, ← h.len_eq, h.entries]
  · intro object hobject
    rcases mem_append.1 hobject with hobject | hobject
    · exact h.valid object hobject
    · exact hvalid object hobject
  · rwa [length_append, ← h.length_entries]

/-- The store after the objects were appended in this order. -/
structure Good (env : Env) (store : PackStore) (objects : List PackedObject) : Prop where
  filled : ∀ segment ∈ store.segments, ∃ objects, Filled env segment objects
  ids : store.segments.Pairwise fun a b => a.id < b.id
  index : store.index = publishEntries [] (store.segments.flatMap ActiveSegment.entries)
  keys : (store.segments.flatMap ActiveSegment.entries).map IndexEntry.key =
    objects.map PackedObject.toObjectKey
  sidecars : ∀ segment ∈ store.older, ∃ bytes, Assoc.find store.sidecars segment.id = some bytes ∧
    writeSidecar env segment.id segment.len segment.entries = .ok bytes

theorem good_empty (h : segmentId < 2 ^ 64) : Good env (.empty segmentId) [] where
  filled := by
    intro segment hsegment
    obtain rfl := mem_singleton.1 hsegment
    exact ⟨[], filled_create h⟩
  ids := pairwise_singleton _ _
  index := rfl
  keys := rfl
  sidecars := nofun

theorem mem_currentEntries (hkeys : (index.map Prod.fst).Nodup) :
    entry ∈ currentEntriesForSegment index segmentId ↔
      Assoc.find index entry.key = some entry.location ∧ entry.location.segmentId = segmentId := by
  rw [currentEntriesForSegment, mem_map]
  constructor
  · rintro ⟨⟨key, location⟩, hmem, rfl⟩
    obtain ⟨hmem, hid⟩ := mem_filter.1 hmem
    exact ⟨Assoc.find_of_mem hkeys hmem, of_decide_eq_true hid⟩
  · rintro ⟨hfind, hid⟩
    exact ⟨_, mem_filter.2 ⟨Assoc.mem_of_find hfind, decide_eq_true hid⟩, rfl⟩

theorem Good.find_index (h : Good env store objects) (key : ObjectKey) : Assoc.find store.index key =
    (lastAt (store.segments.flatMap ActiveSegment.entries) key).map IndexEntry.location := by
  rw [h.index, publishEntries, find_insertAll, Assoc.find_nil, Option.or_none]

theorem Good.nodup (h : Good env store objects) : (store.index.map Prod.fst).Nodup := by
  rw [h.index]
  exact nodup_insertAll (m := []) nodup_nil

theorem Good.active (h : Good env store objects) : ∃ objects, Filled env store.active objects :=
  h.filled _ (mem_append_right _ (mem_singleton.2 rfl))

theorem Good.older_lt (h : Good env store objects) (hsegment : segment ∈ store.older) :
    segment.id < store.active.id :=
  (pairwise_append.1 h.ids).2.2 segment hsegment _ (mem_singleton.2 rfl)

theorem flatMap_segments : store.segments.flatMap ActiveSegment.entries =
    store.older.flatMap ActiveSegment.entries ++ store.active.entries := by
  rw [PackStore.segments, flatMap_append, flatMap_singleton]

theorem Good.mem_currentEntries (h : Good env store objects) :
    entry ∈ currentEntriesForSegment store.index store.active.id ↔
      lastAt store.active.entries entry.key = some entry := by
  obtain ⟨held, hactive⟩ := h.active
  rw [Pack.mem_currentEntries h.nodup, h.find_index, flatMap_segments, lastAt_append]
  constructor
  · rintro ⟨hfind, hid⟩
    obtain ⟨found, hfound, hlocation⟩ := Option.map_eq_some_iff.1 hfind
    rcases Option.or_eq_some_iff.1 hfound with hlast | ⟨-, hlast⟩
    · have hkey := (lastAt_mem hlast).2
      obtain rfl : found = entry := by
        cases found
        cases entry
        cases hkey
        cases hlocation
        rfl
      exact hlast
    · obtain ⟨segment, hsegment, hentry⟩ := mem_flatMap.1 (lastAt_mem hlast).1
      obtain ⟨_, hfilled⟩ := h.filled segment (mem_append_left _ hsegment)
      have hlt := h.older_lt hsegment
      rw [← (hfilled.within hentry).segment, hlocation, hid] at hlt
      exact absurd hlt (lt_irrefl _)
  · intro hlast
    rw [hlast]
    exact ⟨rfl, (hactive.within (lastAt_mem hlast).1).segment⟩

theorem Good.lastAt_currentEntries (h : Good env store objects) (key : ObjectKey) :
    lastAt (currentEntriesForSegment store.index store.active.id) key = lastAt store.active.entries key := by
  apply Option.ext
  intro entry
  have hunique : ∀ a ∈ currentEntriesForSegment store.index store.active.id,
      ∀ b ∈ currentEntriesForSegment store.index store.active.id, a.key = b.key → a = b := by
    intro a ha b hb hkey
    rw [h.mem_currentEntries] at ha hb
    rw [hkey, hb] at ha
    exact (Option.some.inj ha).symm
  rw [lastAt_eq_some hunique, h.mem_currentEntries]
  constructor
  · rintro ⟨hlast, rfl⟩
    exact hlast
  · intro hlast
    obtain rfl := (lastAt_mem hlast).2
    exact ⟨hlast, rfl⟩

theorem good_seal (h : Good env store objects) (hseal : sealActive env disk store = .ok store') :
    Good env store' objects := by
  obtain ⟨held, hactive⟩ := h.active
  obtain ⟨sidecar, hsidecar, hseal⟩ := bind_eq_ok.1 hseal
  obtain ⟨⟨⟩, hnext, hseal⟩ := bind_eq_ok.1 hseal
  obtain rfl := pure_eq_ok.1 hseal
  obtain ⟨⟨⟩, -, hsidecar⟩ := bind_eq_ok.1 (leaving_eq_ok.1 hsidecar)
  obtain ⟨⟨⟩, hid, -⟩ := bind_eq_ok.1 (leaving_eq_ok.1 hnext)
  rw [reject_eq_ok, not_le] at hid
  rw [writeSidecar, canonical_congr h.lastAt_currentEntries, ← writeSidecar] at hsidecar
  refine ⟨?_, ?_, ?_, ?_, ?_⟩
  · intro segment hsegment
    rcases mem_append.1 hsegment with hsegment | hsegment
    · exact h.filled segment hsegment
    · obtain rfl := mem_singleton.1 hsegment
      exact ⟨[], filled_create hid⟩
  · refine pairwise_append.2 ⟨h.ids, pairwise_singleton _ _, ?_⟩
    intro segment hsegment last hlast
    obtain rfl := mem_singleton.1 hlast
    rcases mem_append.1 hsegment with hsegment | hsegment
    · exact Nat.lt_succ_of_lt (h.older_lt hsegment)
    · obtain rfl := mem_singleton.1 hsegment
      exact Nat.lt_succ_self _
  · rw [flatMap_segments]
    exact h.index.trans (congrArg _ (append_nil _).symm)
  · rw [flatMap_segments, ← h.keys]
    exact congrArg _ (append_nil _)
  · intro segment hsegment
    rcases mem_append.1 hsegment with hsegment | hsegment
    · rw [Assoc.find_set, if_neg (h.older_lt hsegment).ne]
      exact h.sidecars segment hsegment
    · obtain rfl := mem_singleton.1 hsegment
      rw [Assoc.find_set, if_pos rfl]
      exact ⟨sidecar, rfl, hsidecar⟩

def PackStore.published (store : PackStore) (objects : List PackedObject) : PackStore :=
  let active := store.active
  let entries := entriesFrom active.id active.len objects
  { store with
    index := publishEntries store.index entries
    active := ⟨active.id, overwrite active.file active.len (objects.flatMap recordBytes),
      active.len + (objects.flatMap recordBytes).length, active.entries ++ entries⟩ }

theorem leaving_bind (h : (leaving store x >>= f) = result) :
    (∃ error, result = .error (error, store)) ∨ ∃ a, x = .ok a ∧ f a = result := by
  cases x with
  | ok a => exact .inr ⟨a, rfl, h⟩
  | error error => exact .inl ⟨error, h.symm⟩

theorem rollbackSegment_index : ∃ error left,
    rollbackSegment disk store written message = .error (error, left) ∧ left.index = store.index := by
  rw [rollbackSegment]
  cases disk.fails .rollback with
  | none => exact ⟨_, _, rfl, rfl⟩
  | some error => exact ⟨_, _, rfl, rfl⟩

theorem appendGroup_cases (hsome : more ≠ []) :
    (∃ error left, appendGroup env disk store more = .error (error, left) ∧ left.index = store.index) ∨
    (∀ object ∈ more, validateObject env object = .ok ()) ∧
      (store.published more).active.len ≤ maxSegmentBytes ∧
      store.active.entries.length + more.length ≤ maxSegmentObjects ∧
      (appendGroup env disk store more = sealActive env disk (store.published more) ∨
        appendGroup env disk store more = .ok (store.published more)) := by
  generalize hresult : appendGroup env disk store more = result
  rw [appendGroup, if_neg hsome] at hresult
  rcases leaving_bind hresult with ⟨error, rfl⟩ | ⟨⟨⟩, hvalid, hresult⟩
  · exact .inl ⟨error, _, rfl, rfl⟩
  rcases leaving_bind hresult with ⟨error, rfl⟩ | ⟨⟨bytes, entries, len⟩, hwrite, hresult⟩
  · exact .inl ⟨error, _, rfl, rfl⟩
  obtain ⟨⟨⟩, -, hwrite⟩ := bind_eq_ok.1 hwrite
  obtain ⟨rfl, rfl, rfl⟩ := writeGroup_eq_ok hwrite
  dsimp only at hresult
  by_cases hbytes : maxSegmentBytes < store.active.len + (more.flatMap recordBytes).length
  · rw [if_pos hbytes] at hresult
    exact .inl (hresult ▸ rollbackSegment_index)
  rw [if_neg hbytes] at hresult
  by_cases hcount : maxSegmentObjects < store.active.entries.length +
      (entriesFrom store.active.id store.active.len more).length
  · rw [if_pos hcount] at hresult
    exact .inl (hresult ▸ rollbackSegment_index)
  rw [if_neg hcount] at hresult
  rw [length_entriesFrom, not_lt] at hcount
  rcases leaving_bind hresult with ⟨error, rfl⟩ | ⟨⟨⟩, -, hresult⟩
  · exact .inl ⟨error, _, rfl, rfl⟩
  refine .inr ⟨forM_eq_ok.1 hvalid, not_lt.1 hbytes, hcount, ?_⟩
  split_ifs at hresult with hfull
  · exact .inl hresult.symm
  · exact .inr hresult.symm

theorem Good.published (h : Good env store objects) (hvalid : ∀ object ∈ more, validateObject env object = .ok ())
    (hbytes : (store.published more).active.len ≤ maxSegmentBytes)
    (hcount : store.active.entries.length + more.length ≤ maxSegmentObjects) :
    Good env (store.published more) (objects ++ more) := by
  obtain ⟨held, hactive⟩ := h.active
  have hentries : (store.published more).segments.flatMap ActiveSegment.entries =
      store.segments.flatMap ActiveSegment.entries ++ entriesFrom store.active.id store.active.len more := by
    rw [flatMap_segments, flatMap_segments, append_assoc]
    rfl
  refine ⟨?_, ?_, ?_, ?_, h.sidecars⟩
  · intro segment hsegment
    rcases mem_append.1 hsegment with hsegment | hsegment
    · exact h.filled segment (mem_append_left _ hsegment)
    · obtain rfl := mem_singleton.1 hsegment
      exact ⟨held ++ more, hactive.extend hvalid hbytes hcount⟩
  · refine pairwise_append.2 ⟨(pairwise_append.1 h.ids).1, pairwise_singleton _ _, ?_⟩
    intro segment hsegment last hlast
    obtain rfl := mem_singleton.1 hlast
    exact h.older_lt hsegment
  · rw [hentries, publishEntries, insertAll, foldl_append]
    exact congrArg (publishEntries · _) h.index
  · rw [hentries, map_append, h.keys, keys_entriesFrom, map_append]

theorem good_append (h : Good env store objects) (happend : appendGroup env disk store more = .ok store') :
    Good env store' (objects ++ more) := by
  by_cases hempty : more = []
  · rw [appendGroup, if_pos hempty] at happend
    cases happend
    rwa [hempty, append_nil]
  rcases appendGroup_cases hempty with ⟨error, left, hfail, -⟩ | ⟨hvalid, hbytes, hcount, hdone⟩
  · rw [hfail] at happend
    cases happend
  · have hpublished := h.published hvalid hbytes hcount
    rcases hdone with hdone | hdone
    · exact good_seal hpublished (hdone ▸ happend)
    · rw [hdone] at happend
      cases happend
      exact hpublished

/-- Groups appended one after the other, until one of them fails. -/
def appendGroups (env : Env) : PackStore → List (Disk × List PackedObject) → Change :=
  List.foldlM fun store (disk, objects) => appendGroup env disk store objects

theorem good_run (h : Good env store objects) (hrun : appendGroups env store groups = .ok store') :
    Good env store' (objects ++ groups.flatMap Prod.snd) := by
  induction groups generalizing store objects with
  | nil =>
    cases hrun
    rwa [flatMap_nil, append_nil]
  | cons group groups ih =>
    obtain ⟨next, happend, hrun⟩ := bind_eq_ok.1 hrun
    rw [flatMap_cons, ← append_assoc]
    exact ih (good_append h happend) hrun

theorem publishEntries_canonical (key : ObjectKey) :
    Assoc.find (publishEntries index (canonical entries)) key =
      Assoc.find (publishEntries index entries) key := by
  rw [publishEntries, find_insertAll, find_insertAll, lastAt_canonical]

end Run

/-- Writing, scanning and the sidecars agree on the records of every segment. -/
theorem pack_paths_agree (env : Env) {segmentId : Nat} (hid : segmentId < 2 ^ 64)
    {groups : List (Disk × List PackedObject)} {store : PackStore}
    (hrun : appendGroups env (.empty segmentId) groups = .ok store) :
    (store.segments.flatMap ActiveSegment.entries).map IndexEntry.key =
      (groups.flatMap Prod.snd).map PackedObject.toObjectKey ∧
    (∀ segment ∈ store.segments,
      (∀ allowTailTruncate, scanSegment env segment.file segment.id allowTailTruncate =
        .ok (segment.entries, segment.file.length)) ∧
      ∀ entry ∈ segment.entries, entry.location.recordOffset % 8 = 0 ∧
        entry.location.recordOffset + recordLength entry.location.storedLen ≤ segment.file.length) ∧
    ∀ segment ∈ store.older, ∃ sidecar loaded, Assoc.find store.sidecars segment.id = some sidecar ∧
      writeSidecar env segment.id segment.file.length segment.entries = .ok sidecar ∧
      loadSidecar env segment.id segment.file.length sidecar = .ok loaded ∧
      (loaded.map IndexEntry.key).Nodup ∧
      ∀ index key, Assoc.find (publishEntries index loaded) key =
        Assoc.find (publishEntries index segment.entries) key := by
  have h := good_run (good_empty hid) hrun
  refine ⟨h.keys, ?_, ?_⟩
  · intro segment hsegment
    obtain ⟨held, hfilled⟩ := h.filled segment hsegment
    rw [← hfilled.len]
    exact ⟨hfilled.scan, fun entry hentry =>
      ⟨(hfilled.within hentry).aligned, (hfilled.within hentry).stop⟩⟩
  · intro segment hsegment
    obtain ⟨held, hfilled⟩ := h.filled segment (mem_append_left _ hsegment)
    obtain ⟨sidecar, hfind, hwrite⟩ := h.sidecars segment hsegment
    have hload := loadSidecar_writeSidecar hfilled.id (hfilled.bytes.trans_lt (by decide))
      (fun _ => hfilled.within) hwrite
    have hnodup : ((canonical segment.entries).map IndexEntry.key).Nodup :=
      pairwise_map.2 (canonical_sorted.imp fun hlt heq => hlt.ne (congrArg _ heq))
    rw [← hfilled.len]
    exact ⟨sidecar, _, hfind, hwrite, hload, hnodup, fun _ => publishEntries_canonical⟩

def soundDisk : Disk := ⟨fun _ => none, []⟩

def constantEnv : Env := ⟨fun _ => ⟨List.replicate 32 7, rfl⟩, fun _ => none⟩

def emptyContent : PackedObject := ⟨⟨.content, List.replicate 32 7, rfl⟩, []⟩

theorem pack_paths_agree_repeated : ∃ store,
    appendGroups constantEnv (.empty 1) [(soundDisk, [emptyContent, emptyContent])] = .ok store ∧
    (store.segments.flatMap ActiveSegment.entries).map IndexEntry.key =
      [emptyContent.toObjectKey, emptyContent.toObjectKey] := by
  have hsome : (appendGroups constantEnv (.empty 1)
      [(soundDisk, [emptyContent, emptyContent])]).toOption.isSome = true := by decide +kernel
  cases hrun : appendGroups constantEnv (.empty 1) [(soundDisk, [emptyContent, emptyContent])] with
  | error failure =>
    rw [hrun] at hsome
    cases hsome
  | ok store => exact ⟨store, rfl, (pack_paths_agree constantEnv (by decide) hrun).1⟩

end Obsetync.Pack

import Obsetync.DiffPage.Paging
import Obsetync.StorageLayout

/-! The diffs a paged pull works through. -/

namespace Obsetync.Pull
open DiffPage Keyed List

/-- `diff_entries`, on two sorted lists. -/
def diffEntries : List FileEntry → List FileEntry → List FileDelta
  | [], new => new.map fun e => .added e.path e.hash e.sizeBytes e.mtimeMs
  | e :: old, [] => (e :: old).map fun e => .deleted e.path e.hash
  | e :: old, f :: new =>
    if e.path = f.path then
      if e.hash ≠ f.hash ∨ e.mtimeMs ≠ f.mtimeMs ∨ e.sizeBytes ≠ f.sizeBytes then
        .modified f.path f.hash f.sizeBytes f.mtimeMs :: diffEntries old new
      else diffEntries old new
    else if e.path < f.path then .deleted e.path e.hash :: diffEntries old (f :: new)
    else .added f.path f.hash f.sizeBytes f.mtimeMs :: diffEntries (e :: old) new
  termination_by old new => old.length + new.length

def deletionOf (hash : FileHash) : FileDelta → Bool
  | .deleted _ h => h = hash
  | _ => false

def additionOf (hash : FileHash) : FileDelta → Bool
  | .added _ h _ _ => h = hash
  | _ => false

/-- Exactly one deletion and one addition have this content. -/
def movedOnce (deltas : List FileDelta) (hash : FileHash) : Bool :=
  deltas.countP (deletionOf hash) = 1 && deltas.countP (additionOf hash) = 1

/-- What becomes of a delta: a deletion that moved is the rename, its addition is consumed. -/
def detectRename (deltas : List FileDelta) : FileDelta → Option FileDelta
  | .deleted oldPath hash =>
    if movedOnce deltas hash then
      match deltas.find? (additionOf hash) with
      | some (.added path _ size mtimeMs) => some (.renamed path oldPath hash size mtimeMs)
      | _ => some (.deleted oldPath hash)
    else some (.deleted oldPath hash)
  | .added path hash size mtimeMs =>
    if movedOnce deltas hash then none else some (.added path hash size mtimeMs)
  | delta => some delta

def detectRenames (deltas : List FileDelta) : List FileDelta := deltas.filterMap (detectRename deltas)

def touched : FileDelta → List String
  | .renamed path oldPath _ _ _ => [path, oldPath]
  | delta => [delta.path]

section
variable {old new : List FileEntry} {deltas : List FileDelta} {delta : FileDelta}

theorem path_of_mem_diffEntries (h : delta ∈ diffEntries old new) :
    ∃ e, (e ∈ old ∨ e ∈ new) ∧ delta.path = e.path := by
  fun_induction diffEntries old new with
  | case1 new =>
    obtain ⟨e, he, rfl⟩ := mem_map.1 h
    exact ⟨e, .inr he, rfl⟩
  | case2 e old =>
    obtain ⟨e, he, rfl⟩ := mem_map.1 h
    exact ⟨e, .inl he, rfl⟩
  | case3 e old f new hpath hchanged ih =>
    rcases mem_cons.1 h with rfl | h
    · exact ⟨f, .inr mem_cons_self, rfl⟩
    · obtain ⟨x, hx, hp⟩ := ih h
      exact ⟨x, hx.imp (mem_cons_of_mem _) (mem_cons_of_mem _), hp⟩
  | case4 e old f new hpath hsame ih =>
    obtain ⟨x, hx, hp⟩ := ih h
    exact ⟨x, hx.imp (mem_cons_of_mem _) (mem_cons_of_mem _), hp⟩
  | case5 e old f new hpath hlt ih =>
    rcases mem_cons.1 h with rfl | h
    · exact ⟨e, .inl mem_cons_self, rfl⟩
    · obtain ⟨x, hx, hp⟩ := ih h
      exact ⟨x, hx.imp_left (mem_cons_of_mem _), hp⟩
  | case6 e old f new hpath hlt ih =>
    rcases mem_cons.1 h with rfl | h
    · exact ⟨f, .inr mem_cons_self, rfl⟩
    · obtain ⟨x, hx, hp⟩ := ih h
      exact ⟨x, hx.imp_right (mem_cons_of_mem _), hp⟩

theorem sorted_diffEntries (hold : Sorted FileEntry.path old) (hnew : Sorted FileEntry.path new) :
    Sorted FileDelta.path (diffEntries old new) := by
  fun_induction diffEntries old new with
  | case1 new => exact pairwise_map.2 hnew
  | case2 e old => exact pairwise_map.2 hold
  | case3 e old f new hpath hchanged ih =>
    obtain ⟨hbelow, hold⟩ := pairwise_cons.1 hold
    obtain ⟨hbelow', hnew⟩ := pairwise_cons.1 hnew
    apply (ih hold hnew).cons
    intro d hd
    obtain ⟨x, hx | hx, hp⟩ := path_of_mem_diffEntries hd
    · rw [hp]
      exact hpath ▸ hbelow x hx
    · rw [hp]
      exact hbelow' x hx
  | case4 e old f new hpath hsame ih =>
    exact ih (pairwise_cons.1 hold).2 (pairwise_cons.1 hnew).2
  | case5 e old f new hpath hlt ih =>
    obtain ⟨hbelow, hold⟩ := pairwise_cons.1 hold
    apply (ih hold hnew).cons
    intro d hd
    obtain ⟨x, hx | hx, hp⟩ := path_of_mem_diffEntries hd
    · rw [hp]
      exact hbelow x hx
    · rw [hp]
      rcases mem_cons.1 hx with rfl | hx
      · exact hlt
      · exact hlt.trans ((pairwise_cons.1 hnew).1 x hx)
  | case6 e old f new hpath hlt ih =>
    obtain ⟨hbelow, hnew⟩ := pairwise_cons.1 hnew
    have hlt' : f.path < e.path := lt_of_le_of_ne (not_lt.1 hlt) (Ne.symm hpath)
    apply (ih hold hnew).cons
    intro d hd
    obtain ⟨x, hx | hx, hp⟩ := path_of_mem_diffEntries hd
    · rw [hp]
      rcases mem_cons.1 hx with rfl | hx
      · exact hlt'
      · exact hlt'.trans ((pairwise_cons.1 hold).1 x hx)
    · rw [hp]
      exact hbelow x hx

theorem eq_of_countP_eq_one {l : List α} (h : l.countP p = 1) (ha : a ∈ l) (hb : b ∈ l) (hpa : p a)
    (hpb : p b) : a = b := by
  rw [countP_eq_length_filter, length_eq_one_iff] at h
  obtain ⟨x, hx⟩ := h
  have hmem {y : α} (hy : y ∈ l) (hp : p y) : y = x := by
    have : y ∈ l.filter p := mem_filter.2 ⟨hy, hp⟩
    rw [hx] at this
    exact mem_singleton.1 this
  rw [hmem ha hpa, hmem hb hpb]

theorem detectRename_cases (h : detectRename deltas delta = some result) :
    result = delta ∨ ∃ addition ∈ deltas, ∃ oldPath hash size mtimeMs,
      result = .renamed addition.path oldPath hash size mtimeMs ∧ delta = .deleted oldPath hash ∧
      movedOnce deltas hash ∧ additionOf hash addition := by
  cases delta with
  | added p hash size mtimeMs =>
    rw [detectRename] at h
    split_ifs at h
    exact .inl (Option.some.inj h).symm
  | modified p hash size mtimeMs => exact .inl (Option.some.inj h).symm
  | renamed p q hash size mtimeMs => exact .inl (Option.some.inj h).symm
  | deleted p hash =>
    rw [detectRename] at h
    split_ifs at h with hmoved
    · split at h
      · next q hash' size mtimeMs hfind =>
        exact .inr ⟨_, mem_of_find?_eq_some hfind, p, hash, size, mtimeMs,
          (Option.some.inj h).symm, rfl, hmoved, find?_some hfind⟩
      · exact .inl (Option.some.inj h).symm
    · exact .inl (Option.some.inj h).symm

theorem path_of_detectRename (hraw : touched delta = [delta.path])
    (h : detectRename deltas delta = some result) (hpath : path ∈ touched result) :
    path = delta.path ∨ ∃ addition ∈ deltas, ∃ oldPath hash, delta = .deleted oldPath hash ∧
      movedOnce deltas hash ∧ additionOf hash addition ∧ path = addition.path := by
  rcases detectRename_cases h with rfl |
    ⟨addition, hmem, oldPath, hash, size, mtimeMs, rfl, rfl, hmoved, hadd⟩
  · rw [hraw] at hpath
    exact .inl (mem_singleton.1 hpath)
  · rcases mem_cons.1 hpath with rfl | hold
    · exact .inr ⟨addition, hmem, oldPath, hash, rfl, hmoved, hadd, rfl⟩
    · exact .inl (mem_singleton.1 hold)

theorem additionOf_unique {hash hash' : FileHash} (h : additionOf hash delta)
    (h' : additionOf hash' delta) : hash = hash' := by
  cases delta with
  | added p x size mtimeMs => exact (of_decide_eq_true h).symm.trans (of_decide_eq_true h')
  | modified p x size mtimeMs => cases h
  | deleted p x => cases h
  | renamed p q x size mtimeMs => cases h

theorem detectRename_addition {hash : FileHash} (h : additionOf hash delta)
    (hmoved : movedOnce deltas hash) : detectRename deltas delta = none := by
  cases delta with
  | added p hash' size mtimeMs =>
    obtain rfl := of_decide_eq_true h
    rw [detectRename, if_pos hmoved]
  | modified p hash' size mtimeMs => cases h
  | deleted p hash' => cases h
  | renamed p q hash' size mtimeMs => cases h

theorem separate_detectRenames (hraw : ∀ delta ∈ deltas, touched delta = [delta.path])
    (hpaths : deltas.Pairwise fun a b => a.path ≠ b.path) :
    ((detectRenames deltas).flatMap touched).Nodup := by
  have hunique {a b : FileDelta} (ha : a ∈ deltas) (hb : b ∈ deltas) (h : a.path = b.path) :
      a = b := by
    by_contra hne
    have hsymm : Std.Symm fun a b : FileDelta => a.path ≠ b.path := ⟨fun _ _ => Ne.symm⟩
    exact hpaths.forall ha hb hne h
  rw [nodup_flatMap]
  constructor
  · intro result hresult
    obtain ⟨delta, hdelta, h⟩ := mem_filterMap.1 hresult
    rcases detectRename_cases h with rfl |
      ⟨addition, hmem, oldPath, hash, size, mtimeMs, rfl, rfl, -, hadd⟩
    · rw [hraw _ hdelta]
      exact nodup_singleton _
    · rw [touched, nodup_cons, mem_singleton]
      refine ⟨fun hpath => ?_, nodup_singleton _⟩
      rw [hunique hmem hdelta hpath] at hadd
      cases hadd
  · rw [detectRenames, pairwise_filterMap]
    apply hpaths.imp_of_mem
    intro a b ha hb hne x hx y hy path hpx hpy
    rcases path_of_detectRename (hraw a ha) hx hpx with rfl | ⟨c, hc, p, hash, rfl, hm, hadd, rfl⟩
    · rcases path_of_detectRename (hraw b hb) hy hpy with h | ⟨c, hc, p, hash, rfl, hm, hadd, h⟩
      · exact hne h
      · rw [hunique ha hc h, detectRename_addition hadd hm] at hx
        cases hx
    · rcases path_of_detectRename (hraw b hb) hy hpy with h | ⟨c', hc', p', hash', rfl, hm', hadd', h⟩
      · rw [← hunique hc hb h, detectRename_addition hadd hm] at hy
        cases hy
      · obtain rfl := hunique hc hc' h
        obtain rfl := additionOf_unique hadd hadd'
        have hone := of_decide_eq_true ((Bool.and_eq_true _ _).mp hm).1
        have hsame := eq_of_countP_eq_one hone ha hb (decide_eq_true rfl) (decide_eq_true rfl)
        exact hne (congrArg FileDelta.path hsame)

theorem touched_of_mem_diffEntries (h : delta ∈ diffEntries old new) :
    touched delta = [delta.path] := by
  fun_induction diffEntries old new with
  | case1 new =>
    obtain ⟨e, -, rfl⟩ := mem_map.1 h
    rfl
  | case2 e old =>
    obtain ⟨e, -, rfl⟩ := mem_map.1 h
    rfl
  | case3 e old f new hpath hchanged ih =>
    rcases mem_cons.1 h with rfl | h
    · rfl
    · exact ih h
  | case4 e old f new hpath hsame ih => exact ih h
  | case5 e old f new hpath hlt ih =>
    rcases mem_cons.1 h with rfl | h
    · rfl
    · exact ih h
  | case6 e old f new hpath hlt ih =>
    rcases mem_cons.1 h with rfl | h
    · rfl
    · exact ih h

end

/-- The records of a diff, as the server pages through them. -/
structure Diff where
  records : List FileDelta
  sorted : Sorted leftKey records
  valid : ∀ delta ∈ records, validateDelta delta = .ok ()
  separate : (records.flatMap touched).Nodup

/-- The diff between two sorted lists of entries, if the server can page it. -/
def Diff.between {old new : List FileEntry} {records : List FileDelta}
    (hold : Sorted FileEntry.path old) (hnew : Sorted FileEntry.path new)
    (h : sortAndValidateDeltas (detectRenames (diffEntries old new)) = .ok records) : Diff where
  records := records
  sorted := (sortAndValidateDeltas_spec h).2.1
  valid := (sortAndValidateDeltas_spec h).2.2
  separate := by
    have hseparate : ((detectRenames (diffEntries old new)).flatMap touched).Nodup := by
      apply separate_detectRenames
      · exact fun delta hdelta => touched_of_mem_diffEntries hdelta
      · exact (sorted_diffEntries hold hnew).imp ne_of_lt
    exact ((sortAndValidateDeltas_spec h).1.flatMap_right touched).nodup_iff.2 hseparate

/-- Where the records after a cursor begin, as the server finds it. -/
def Diff.place (diff : Diff) (fromRoot toRoot : FileHash) (cursor : Bytes) : Option Nat :=
  if cursor = [] then some 0
  else
    match decodeCursor cursor with
    | .error _ => none
    | .ok decoded =>
      if decoded.fromRoot = fromRoot ∧ decoded.toRoot = toRoot then
        (startOf diff.records (some decoded)).toOption
      else none

theorem Diff.place_cursorTo (diff : Diff) (h : diff.records = before ++ rest) :
    diff.place fromRoot toRoot (cursorTo fromRoot toRoot before) = some before.length := by
  cases hlast : before.getLast? with
  | none =>
    rw [getLast?_eq_none_iff.1 hlast]
    rfl
  | some delta =>
    have hmem : delta ∈ diff.records := h ▸ mem_append_left _ (mem_of_getLast? hlast)
    have hdecode := (@decodeCursor_cursorBytes fromRoot toRoot) (diff.valid delta hmem)
    have hcursor : cursorTo fromRoot toRoot before = cursorBytes fromRoot toRoot (keyOf delta) := by
      rw [cursorTo, hlast]
    have hne : cursorBytes fromRoot toRoot (keyOf delta) ≠ [] := by
      intro hnil
      rw [hnil] at hdecode
      cases hdecode
    have hstart := (@startOf_keyOf fromRoot toRoot) (h ▸ diff.sorted) hlast
    rw [hcursor, Diff.place, if_neg hne, hdecode]
    dsimp only
    rw [if_pos ⟨rfl, rfl⟩, h, hstart]
    rfl

def hexValue (c : Char) : Option Nat :=
  if '0' ≤ c ∧ c ≤ '9' then some (c.toNat - 48)
  else if 'a' ≤ c ∧ c ≤ 'f' then some (c.toNat - 87)
  else if 'A' ≤ c ∧ c ≤ 'F' then some (c.toNat - 55)
  else none

def hexBytes : List Char → Option Bytes
  | [] => some []
  | [_] => none
  | a :: b :: rest =>
    match hexValue a, hexValue b, hexBytes rest with
    | some high, some low, some bytes => some (UInt8.ofNat (16 * high + low) :: bytes)
    | _, _, _ => none

def diffCursorToHex (cursor : Bytes) : Option String :=
  if cursor = [] then none else some (hexEncode cursor)

/-- The cursor of a checkpoint, or `none` where it is not one. -/
def diffCursorFromHex : Option String → Option Bytes
  | none => some []
  | some value =>
    if 2 * maxCursorBytes < value.toList.length then none else hexBytes value.toList

def rootFromHex (value : String) : Option FileHash :=
  (hexBytes value.toList).bind fun bytes =>
    if h : bytes.length = 32 then some ⟨bytes, h⟩ else none

theorem hexValue_hexDigit (h : n < 16) : hexValue (hexDigit n) = some n := by
  have hall : ∀ n < 16, hexValue (hexDigit n) = some n := by decide
  exact hall n h

theorem hexBytes_hexChars : hexBytes (hexChars bytes) = some bytes := by
  induction bytes with
  | nil => rfl
  | cons b bytes ih =>
    have hhigh := hexValue_hexDigit (n := b.toNat / 16) (by have := b.toNat_lt; omega)
    have hlow := hexValue_hexDigit (n := b.toNat % 16) (Nat.mod_lt _ (by decide))
    change hexBytes (hexDigit _ :: hexDigit _ :: hexChars bytes) = _
    rw [hexBytes, hhigh, hlow, ih]
    dsimp only
    rw [Nat.div_add_mod, UInt8.ofNat_toNat]

theorem rootFromHex_hexEncode (root : FileHash) : rootFromHex (hexEncode root.val) = some root := by
  rw [rootFromHex, hexEncode, String.toList_ofList, hexBytes_hexChars]
  exact dif_pos root.property

theorem hexEncode_root_inj {a b : FileHash} (h : hexEncode a.val = hexEncode b.val) : a = b := by
  have ha := rootFromHex_hexEncode a
  rw [h, rootFromHex_hexEncode] at ha
  exact (Option.some.inj ha).symm

theorem length_hexChars : (hexChars bytes).length = 2 * bytes.length := by
  induction bytes with
  | nil => rfl
  | cons b bytes ih =>
    change (hexChars bytes).length + 1 + 1 = _
    rw [ih, length_cons]
    omega

theorem diffCursorFromHex_toHex (h : cursor.length ≤ maxCursorBytes) :
    diffCursorFromHex (diffCursorToHex cursor) = some cursor := by
  rw [diffCursorToHex]
  split_ifs with hnil
  · rw [hnil]
    rfl
  · rw [diffCursorFromHex, hexEncode, String.toList_ofList, length_hexChars, hexBytes_hexChars]
    exact if_neg (by omega)

end Obsetync.Pull
